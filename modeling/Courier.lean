import Courier.Address
import Courier.Address.Ip
import Courier.Address.Ip.Parse
import Courier.Address.Listen
import Courier.Address.Parse
import Courier.Arrivals
import Courier.Assembly
import Courier.Bytes
import Courier.Bytes.Hex
import Courier.Channel
import Courier.Departures
import Courier.Doorman
import Courier.Exchange
import Courier.Guest
import Courier.Host
import Courier.Journal
import Courier.Message
import Courier.Message.Payload
import Courier.Metronome
import Courier.Network.Bench
import Courier.Network.Conditions
import Courier.Network.Filter
import Courier.Network.Impaired
import Courier.Network.Noise
import Courier.Network.Simulated
import Courier.Network.Socket
import Courier.Network.Transit
import Courier.Network.World
import Courier.Notice
import Courier.Outbox
import Courier.Outgoing
import Courier.Packet
import Courier.Packet.Codec
import Courier.Phase
import Courier.Program.Client
import Courier.Program.Match
import Courier.Program.Server
import Courier.Roster
import Courier.RoundTrip
import Courier.Screen.Cell
import Courier.Screen.Dashboard
import Courier.Screen.Pane
import Courier.Serial
import Courier.Text.Decimal
import Courier.Text.Numeral
import Courier.Text.Quantity
import Courier.Text.Split
import Courier.Text.Utf8
import Courier.Time
import Courier.Traffic
import Courier.Transport
import Courier.Window
import Courier.Wording
import Courier.Proofs.Chronicle.Conservation
import Courier.Proofs.Dialogue.ExactlyOnce
import Courier.Proofs.Assembly.Group
import Courier.Proofs.Assembly.Accept
import Courier.Proofs.Intake
import Courier.Proofs.Chronicle.Cargo
import Courier.Proofs.Dialogue.Delivery
import Courier.Proofs.Dialogue.Integrity
import Courier.Proofs.Dialogue.Confirmation
import Courier.Proofs.Dialogue.Retention
import Courier.Proofs.Chronicle.Resend
import Courier.Proofs.Daybook.Admission
import Courier.Proofs.Packet.RoundTrip
import Courier.Proofs.Packet.Grammar
import Courier.Proofs.Arrivals.Numbering
import Courier.Proofs.Assembly.Verdicts
import Courier.Proofs.Host.Content
import Courier.Proofs.Daybook.Verdicts
import Courier.Proofs.Guest
import Courier.Proofs.Meeting
import Courier.Proofs.Assembly.Resends
import Courier.Proofs.Assembly.Sources
import Courier.Proofs.Intake.Complete
import Courier.Proofs.Intake.Joined
import Courier.Proofs.Loading
import Courier.Proofs.Transport
import Courier.Proofs.Host.Sides
import Courier.Proofs.Host.Separation
import Courier.Proofs.Network
import Courier.Proofs.Reception
import Courier.Proofs.Outgoing.Shape
import Courier.Proofs.Built
import Courier.Proofs.Daybook.Lifecycle
import Courier.Proofs.Guest.Disturbed
import Courier.Proofs.Outgoing.Disposal
import Courier.Proofs.Assembly.Consistency
import Courier.Proofs.Network.Postbook
import Courier.Proofs.Guest.Memoir
import Courier.Proofs.Outbox.Queueing
import Courier.Proofs.Chronicle.Losses
import Courier.Proofs.Host.Answer
import Courier.Proofs.Outgoing.Order
import Courier.Proofs.Chronicle.Order
import Courier.Proofs.Outbox.Portion
import Courier.Proofs.Chronicle.Accounts
import Courier.Proofs.Driven
import Courier.Proofs.Client
import Courier.Proofs.Chronicle.SpareSlot
import Courier.Proofs.Metronome
import Courier.Proofs.Departures.Samples
import Courier.Proofs.Daybook.Totals
import Courier.Proofs.Daybook.Rejections
import Courier.Proofs.Serial.Order
import Courier.Proofs.Text.Utf8
import Courier.Proofs.Serial.Order
import Courier.Proofs.Credentials
