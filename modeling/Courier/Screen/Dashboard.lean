import Courier.Journal
import Courier.Program.Server
import Courier.Screen.Pane
import Courier.Text.Quantity

/-!
# The dashboard of a server

Six panes under each other: header, status, network, connections, events and
controls. The connections take the height that the others leave.
-/

namespace Courier.Screen

structure Dashboard where
  width : Nat
  height : Nat
  journal : Journal
  status : ServerStatus
  uptime : Nat
  /-- Peers with the seconds since they connected. -/
  peers : List (PeerStatus × Nat)

namespace Dashboard

def plain : Style := {}

def lossColor (percent : Float32) : Color := if 5.0 < percent then .red else .white

def phaseColor : Phase → Color
  | .idle => .darkGray
  | .asking => .yellow
  | .admitted => .cyan
  | .playing => .green

def levelColor : Level → Color
  | .error => .red
  | .warn => .yellow
  | .info => .white
  | .debug | .trace => .darkGray

def margin : Nat := 1

def paneWidth (d : Dashboard) : Nat := d.width - 2 * margin

def innerWidth (d : Dashboard) : Nat := d.paneWidth - 2

def headerHeight : Nat := 3
def statusHeight : Nat := 3
def networkHeight : Nat := 6
def eventsHeight : Nat := 10
def controlsHeight : Nat := 3

def connectionsHeight (d : Dashboard) : Nat :=
  d.height - 2 * margin -
    (headerHeight + statusHeight + networkHeight + eventsHeight + controlsHeight)

def headerPane (d : Dashboard) : List Row :=
  let text := s!"Tick: {d.status.tick}  |  Peers: {d.status.peers}  |  In game: {d.status.playing}"
  frame d.paneWidth headerHeight (.colored .cyan) (.colored .white)
    (" Tickwire Server - Uptime: " ++ Quantity.duration d.uptime ++ " ")
    [.ofText (.colored .white) text]

def statusPane (d : Dashboard) : List Row :=
  let style := Style.colored .green
  let label := s!"{d.status.peers}/{d.status.maxPeers} clients"
  frame d.paneWidth statusHeight style style " Status "
    [gauge d.innerWidth style d.status.peers (max d.status.maxPeers 1) label]

def networkPane (d : Dashboard) : List Row :=
  let t := d.status.traffic
  let entry (label : String) (color : Color) (value : String) : Row :=
    .ofText (.colored .gray) (label ++ ": ") ++ .ofText (.colored color) value
  frame d.paneWidth networkHeight (.colored .yellow) plain " Network "
    [entry "Packets" .white
        s!"{t.packetsSent} sent / {t.packetsReceived} recv / {t.packetsMalformed} malformed",
      entry "Bytes" .white
        (Quantity.size t.bytesSent ++ " sent / " ++ Quantity.size t.bytesReceived ++ " recv"),
      entry "Messages" .white
        (s!"{t.messagesDelivered} delivered / {t.messagesRequeued} requeued / " ++
          s!"{t.messagesDropped} dropped"),
      entry "Packet Loss" (lossColor t.lossPercent) (Quantity.percent t.lossPercent)]

def fixedWidths : List Nat := [11, 10, 10, 8, 7, 7, 9]

def columnWidths (width : Nat) : List Nat :=
  (width - fixedWidths.foldl (fun taken column => taken + 1 + column) 0) :: fixedWidths

def titles : List String := ["Address", "State", "Seq", "Remote", "Queue", "Loss", "RTT", "Up"]

def peerTexts (p : PeerStatus) (connected : Nat) : List (String × Style) :=
  [(p.peer, plain),
    (p.phase.name, .colored (phaseColor p.phase)),
    (toString p.sequence.toNat, plain),
    (toString p.peerSequence.toNat, plain),
    (s!"{p.queued} ({p.inFlight})", plain),
    (Quantity.percent p.lossPercent, .colored (lossColor p.lossPercent)),
    (Quantity.millis 0 p.roundTrip, plain),
    (Quantity.duration connected, plain)]

def connectionsPane (d : Dashboard) : List Row :=
  let widths := columnWidths d.innerWidth
  let bold : Style := { foreground := .gray, emphasis := .bold }
  let head := columns bold widths (titles.map fun title => (title, bold))
  let rows := d.peers.map fun (p, connected) => columns plain widths (peerTexts p connected)
  frame d.paneWidth d.connectionsHeight (.colored .magenta) plain " Connections "
    (head.fit d.innerWidth bold :: rows)

def eventsPane (d : Dashboard) : List Row :=
  frame d.paneWidth eventsHeight (.colored .blue) plain " Events "
    ((d.journal.latest (eventsHeight - 2)).map fun line =>
      .ofText (.colored (levelColor line.level)) line.text)

def controlsPane (d : Dashboard) : List Row :=
  let style : Style := { foreground := .darkGray, emphasis := .italic }
  frame d.paneWidth controlsHeight style style " Controls "
    [.ofText style "Press 'q' or ESC to quit"]

def render (d : Dashboard) : List Row :=
  let panes := d.headerPane ++ d.statusPane ++ d.networkPane ++ d.connectionsPane ++ d.eventsPane ++
    d.controlsPane
  let blank : Row := List.replicate d.width {}
  let edge : Row := List.replicate margin {}
  blank :: panes.map (fun row => edge ++ row ++ edge) ++ [blank]

end Dashboard

end Courier.Screen
