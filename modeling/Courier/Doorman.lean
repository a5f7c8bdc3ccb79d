import Courier.Address
import Courier.Message.Payload

/-!
# Doormen

A doorman decides which peers a host lets in. It may change with every decision.
-/

namespace Courier

class Doorman (δ : Type) where
  admits : δ → Address → Credentials → Bool × δ

structure OpenDoor where
  deriving DecidableEq, Repr

instance : Doorman OpenDoor where
  admits door _ _ := (true, door)

structure BanList where
  users : List String
  /-- Latest first. -/
  asked : List (Address × Credentials) := []
  deriving DecidableEq, Repr

instance : Doorman BanList where
  admits list peer credentials :=
    (!list.users.contains credentials.user,
      { list with asked := (peer, credentials) :: list.asked })

end Courier
