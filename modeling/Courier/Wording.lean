import Courier.Guest
import Courier.Host
import Courier.Journal

/-!
# Events in words

How the two programs report what happens. The server names the peer; the client
writes out in full what a player need not see.
-/

namespace Courier.Wording

def yesNo (b : Bool) : String := if b then "true" else "false"

def fields (entries : List (String × String)) : String :=
  "\x7b " ++ ", ".intercalate (entries.map fun entry => entry.1 ++ ": " ++ entry.2) ++ " \x7d"

def envelope (e : Envelope) : String :=
  "MessageInfo " ++ fields
    [("kind", "MessageKind(" ++ toString e.kind.code.toNat ++ ")"),
      ("critical", yesNo e.critical),
      ("fragment_id", toString e.fragment.toNat),
      ("order", toString e.order.toNat),
      ("len", toString e.size)]

def resync : Resync → String
  | .receiveGap gap => "ReceiveGap " ++ fields [("gap", toString gap.toNat)]
  | .ackDesync gap => "AckDesync " ++ fields [("gap", toString gap.toNat)]
  | .ackAhead ack sequence =>
    "AckAhead " ++ fields [("ack", toString ack.toNat), ("sequence", toString sequence.toNat)]

def phase : Phase → String
  | .idle => "None"
  | .asking => "TryingAuth"
  | .admitted => "Auth"
  | .playing => "InGame"

def inFull : Notice → String
  | .lost sequence critical =>
    "PacketLost " ++ fields [("sequence", toString sequence.toNat), ("critical", yesNo critical)]
  | .delivered e => "MessageDelivered(" ++ envelope e ++ ")"
  | .dropped e => "MessageDropped(" ++ envelope e ++ ")"
  | .requeued e => "MessageRequeued(" ++ envelope e ++ ")"
  | .resync r => "WindowResync(" ++ resync r ++ ")"
  | .phase before after =>
    "StateChanged " ++ fields [("from", phase before), ("to", phase after)]

def transition (before after : Phase) : String := before.name ++ " -> " ++ after.name

def place (e : Envelope) : String := toString e.fragment.toNat ++ "/" ++ toString e.order.toNat

def notice (n : Notice) : Line :=
  match n with
  | .phase before after => ⟨.info, transition before after⟩
  | .lost sequence true => ⟨.warn, s!"packet {sequence.toNat} with critical data lost"⟩
  | _ => ⟨.debug, inFull n⟩

def guestEvent : GuestEvent → Line
  | .message d => ⟨.info, "server: " ++ Utf8.decode d.data⟩
  | .verdict true => ⟨.info, "credentials accepted"⟩
  | .verdict false => ⟨.error, "credentials rejected"⟩
  | .timedOut => ⟨.warn, "server timed out, reconnecting"⟩
  | .failed f => ⟨.error, f.message⟩
  | .notice n => notice n

def peerNotice (peer : Address) (n : Notice) : Line :=
  let about (level : Level) (text : String) : Line := ⟨level, peer.toText ++ " " ++ text⟩
  match n with
  | .lost sequence critical =>
    about (if critical then .warn else .debug)
      ("lost packet " ++ toString sequence.toNat ++ " (critical: " ++ yesNo critical ++ ")")
  | .delivered e => about .debug ("acked message " ++ place e)
  | .dropped e => about .debug ("dropped message " ++ place e)
  | .requeued e => about .debug ("requeued message " ++ place e)
  | .resync r => about .warn ("window resync: " ++ r.reason)
  | .phase before after => about .info (transition before after)

def hostEvent : HostEvent → Line
  | .connected peer => ⟨.info, peer.toText ++ " connected"⟩
  | .timedOut peer => ⟨.info, peer.toText ++ " timed out"⟩
  | .rejected peer reason => ⟨.warn, peer.toText ++ " rejected: " ++ reason⟩
  | .message peer d =>
    ⟨.info, peer.toText ++ " sent kind " ++ toString d.kind.code.toNat ++ " (" ++
      toString d.data.length ++ " bytes): " ++ Utf8.decode d.data⟩
  | .notice peer n => peerNotice peer n
  | .failed (some peer) f => ⟨.error, peer.toText ++ ": " ++ f.message⟩
  | .failed none f => ⟨.error, f.message⟩

end Courier.Wording
