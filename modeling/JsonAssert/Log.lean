/-! Log records, and computations that leave some. -/
namespace JsonAssert

inductive Level where
  | debug | info | warning
  deriving DecidableEq, Repr

def Level.rank : Level → Nat
  | .debug => 10
  | .info => 20
  | .warning => 30

/-- The part of the library that a record comes from. -/
inductive Origin where
  | decoder | generator
  deriving DecidableEq, Repr

def Origin.name : Origin → String
  | .decoder => "jtg_core.decoder"
  | .generator => "jtg_core.codegen"

/-- A record; all of them are for debugging. -/
structure LogRecord where
  origin : Origin
  message : String
  deriving DecidableEq, Repr

def LogRecord.level (_ : LogRecord) : Level := .debug

def LogRecord.line (r : LogRecord) : String := "DEBUG " ++ r.origin.name ++ ": " ++ r.message

/-- The records that show at a level. -/
def Level.visible (l : Level) (log : List LogRecord) : List LogRecord :=
  log.filter fun r => l.rank ≤ r.level.rank

/-- An outcome with the records that led to it, which a failure keeps. -/
structure Traced (ε α : Type) where
  log : List LogRecord
  outcome : Except ε α

namespace Traced
variable {ε ε' α β : Type}

def record (origin : Origin) (messages : List String) : Traced ε Unit :=
  ⟨messages.map (⟨origin, ·⟩), .ok ()⟩

def ofExcept (outcome : Except ε α) : Traced ε α := ⟨[], outcome⟩

def mapError (f : ε → ε') (x : Traced ε α) : Traced ε' α := ⟨x.log, x.outcome.mapError f⟩

def andThen (x : Traced ε α) (f : α → Traced ε β) : Traced ε β :=
  match x.outcome with
  | .error e => ⟨x.log, .error e⟩
  | .ok a =>
    let y := f a
    ⟨x.log ++ y.log, y.outcome⟩

instance : Monad (Traced ε) where
  pure a := ⟨[], .ok a⟩
  map f x := ⟨x.log, x.outcome.map f⟩
  bind := andThen

@[simp] theorem pure_eq (a : α) : (pure a : Traced ε α) = ⟨[], .ok a⟩ := rfl

@[simp] theorem map_eq (f : α → β) (x : Traced ε α) : f <$> x = ⟨x.log, x.outcome.map f⟩ := rfl

@[simp] theorem bind_ok (log : List LogRecord) (a : α) (f : α → Traced ε β) :
    (⟨log, .ok a⟩ : Traced ε α) >>= f = ⟨log ++ (f a).log, (f a).outcome⟩ := rfl

@[simp] theorem bind_error (log : List LogRecord) (e : ε) (f : α → Traced ε β) :
    (⟨log, .error e⟩ : Traced ε α) >>= f = ⟨log, .error e⟩ := rfl

end Traced
end JsonAssert
