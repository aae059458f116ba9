import PathQuery.Criteria.Error
import PathQuery.Graph.Error
import PathQuery.Session.Record
import PathQuery.Store.Basic

/-! Faults and their classes. Every error of the library has a class, an origin and a text;
class and origin together decide the public kind under which callers see it. -/

namespace PathQuery

inductive RegistrationError
  | notConfigured
  | alreadyRegistered
  deriving DecidableEq, Repr

def RegistrationError.message : RegistrationError → String
  | .notConfigured => "no session registered"
  | .alreadyRegistered => "a session is already registered; pass force to replace it"

inductive ErrorClass
  | invalidInput
  | notFound
  | notUnique
  | conflict
  | unsupported
  | unconfigured
  | internal
  deriving DecidableEq, Repr

inductive ErrorOrigin
  | criteria
  | store
  | session
  | load
  | serialize
  deriving DecidableEq, Repr

/-- An error sorted by class and origin. -/
structure ClassifiedError where
  errorClass : ErrorClass
  origin : ErrorOrigin
  message : String
  deriving DecidableEq, Repr

inductive ErrorKind
  | queryInvalid
  | queryUnsupported
  | queryNotFound
  | queryNotUnique
  | sessionNotConfigured
  | sessionAlreadyRegistered
  | storeConflict
  | load
  | internal
  deriving DecidableEq, Repr

/-- An error as callers see it. -/
structure PublicError where
  kind : ErrorKind
  origin : ErrorOrigin
  message : String
  deriving DecidableEq, Repr

/-- The public kind of a class and an origin. -/
def ErrorKind.of : ErrorClass → ErrorOrigin → ErrorKind
  | .unconfigured, _ => .sessionNotConfigured
  | .conflict, .session => .sessionAlreadyRegistered
  | .notFound, _ => .queryNotFound
  | .notUnique, _ => .queryNotUnique
  | .conflict, .store => .storeConflict
  | .invalidInput, .load => .load
  | .invalidInput, _ => .queryInvalid
  | .unsupported, _ => .queryUnsupported
  | _, _ => .internal

def ClassifiedError.toPublic (e : ClassifiedError) : PublicError :=
  ⟨.of e.errorClass e.origin, e.origin, e.message⟩

def PublicError.isNotFound (e : PublicError) : Bool := e.kind == .queryNotFound

namespace CriteriaError

def errorClass : CriteriaError → ErrorClass
  | .unsupportedOperator _ _ _ _ => .unsupported
  | _ => .invalidInput

def classify (e : CriteriaError) : ClassifiedError := ⟨e.errorClass, .criteria, e.message⟩

end CriteriaError

namespace StoreError

def errorClass : StoreError → ErrorClass
  | .notFound _ => .notFound
  | .multipleResults _ _ => .notUnique
  | .duplicateKey _ _ => .conflict
  | .missingPrimaryKey _ _ => .invalidInput

def classify (e : StoreError) : ClassifiedError := ⟨e.errorClass, .store, e.message⟩

end StoreError

namespace RegistrationError

def errorClass : RegistrationError → ErrorClass
  | .notConfigured => .unconfigured
  | .alreadyRegistered => .conflict

def classify (e : RegistrationError) : ClassifiedError := ⟨e.errorClass, .session, e.message⟩

end RegistrationError

def LoadError.classify (e : LoadError) : ClassifiedError := ⟨.invalidInput, .load, e.message⟩

def RecordError.classify (e : RecordError) : ClassifiedError := ⟨.internal, .serialize, e.message⟩

/-- What can go wrong in a session. -/
inductive Fault
  | criteria (error : CriteriaError)
  | store (error : StoreError)
  | load (error : LoadError)
  | record (error : RecordError)
  deriving DecidableEq, Repr

namespace Fault

variable {α : Type}

def ofCriteria (result : Except CriteriaError α) : Except Fault α := result.mapError .criteria

def ofStore (result : Except StoreError α) : Except Fault α := result.mapError .store

def ofLoad (result : Except LoadError α) : Except Fault α := result.mapError .load

def ofRecord (result : Except RecordError α) : Except Fault α := result.mapError .record

def classify : Fault → ClassifiedError
  | .criteria e => e.classify
  | .store e => e.classify
  | .load e => e.classify
  | .record e => e.classify

def message (f : Fault) : String := f.classify.message

def isNotFound : Fault → Bool
  | .store (.notFound _) => true
  | _ => false

def isMultipleResults : Fault → Bool
  | .store (.multipleResults _ _) => true
  | _ => false

end Fault

end PathQuery
