import PathQuery.Fault

/-! The slot that holds the session of code that is handed none. It holds at most one
provider: a session that is ready, or a way of making one each time it is asked for. The
first registration stays until it is cleared or replaced by force, and every accepted one is
recorded. What making a session does to the world around is the business of a state that the
slot does not look at. -/

namespace PathQuery

/-- Where a session comes from: `ι` stands for sessions and `σ` for the world they are in. -/
inductive Provider (σ ι : Type)
  | value (session : ι)
  | factory (make : σ → ι × σ)

namespace Provider

variable {σ ι : Type}

def isFactory : Provider σ ι → Bool
  | .value _ => false
  | .factory _ => true

/-- How a log names the provider. -/
def label (provider : Provider σ ι) : String :=
  if provider.isFactory then "SessionProvider::Factory" else "SessionProvider::Value"

/-- The session, made now if it has to be. -/
def resolve : Provider σ ι → σ → ι × σ
  | .value session, world => (session, world)
  | .factory make, world => make world

end Provider

/-- What a slot records. -/
inductive SlotEvent
  | registered (provider : String) (force : Bool)
  deriving DecidableEq, Repr

def SlotEvent.message : SlotEvent → String
  | .registered _ _ => "session registered"

structure Slot (σ ι : Type) where
  provider? : Option (Provider σ ι)

namespace Slot

variable {σ ι : Type}

def empty : Slot σ ι := ⟨none⟩

def isRegistered (slot : Slot σ ι) : Bool := slot.provider?.isSome

/-- Puts a provider in, over another one only by force. -/
def register (slot : Slot σ ι) (provider : Provider σ ι) (force : Bool) :
    Except RegistrationError (Slot σ ι) :=
  if slot.isRegistered && !force then .error .alreadyRegistered else .ok ⟨some provider⟩

/-- Puts a provider in, and records it when it is accepted. -/
def registerTraced (slot : Slot σ ι) (provider : Provider σ ι) (force : Bool) :
    Except RegistrationError (Slot σ ι × SlotEvent) := do
  let next ← slot.register provider force
  return (next, .registered provider.label force)

/-- The session of the slot, and the world after it was made. -/
def session (slot : Slot σ ι) (world : σ) : Except RegistrationError (ι × σ) :=
  match slot.provider? with
  | some provider => .ok (provider.resolve world)
  | none => .error .notConfigured

def clear (_ : Slot σ ι) : Slot σ ι := empty

end Slot

end PathQuery
