import Mathlib.Tactic.TypeStar

/-! Results of calls that may return a value, return an error, or panic. -/

inductive Outcome (ε α : Type*) where
  | ok (a : α)
  | err (e : ε)
  | panic
  deriving DecidableEq, Repr

namespace Outcome
universe u
variable {ε ε' α β γ : Type*}

def bind (x : Outcome ε α) (f : α → Outcome ε β) : Outcome ε β :=
  match x with
  | .ok a => f a
  | .err e => .err e
  | .panic => .panic

def map (f : α → β) (x : Outcome ε α) : Outcome ε β := x.bind fun a => .ok (f a)

/-- `Result::map_err`. -/
def mapErr (f : ε → ε') : Outcome ε α → Outcome ε' α
  | .ok a => .ok a
  | .err e => .err (f e)
  | .panic => .panic

@[simp] theorem ok_bind (a : α) (f : α → Outcome ε β) : (ok a : Outcome ε α).bind f = f a := rfl
@[simp] theorem err_bind (e : ε) (f : α → Outcome ε β) : (err e).bind f = err e := rfl
@[simp] theorem panic_bind (f : α → Outcome ε β) : (panic : Outcome ε α).bind f = panic := rfl
@[simp] theorem map_ok (f : α → β) (a : α) : (ok a : Outcome ε α).map f = ok (f a) := rfl
@[simp] theorem map_err (f : α → β) (e : ε) : (err e : Outcome ε α).map f = err e := rfl
@[simp] theorem map_panic (f : α → β) : (panic : Outcome ε α).map f = panic := rfl
@[simp] theorem mapErr_ok (f : ε → ε') (a : α) : (ok a : Outcome ε α).mapErr f = ok a := rfl
@[simp] theorem mapErr_err (f : ε → ε') (e : ε) : (err e : Outcome ε α).mapErr f = err (f e) := rfl
@[simp] theorem mapErr_panic (f : ε → ε') :
    (panic : Outcome ε α).mapErr f = panic := rfl

instance : Monad (Outcome ε) where
  pure := .ok
  bind := .bind

@[simp] theorem bind_eq {α β : Type u} (x : Outcome ε α) (f : α → Outcome ε β) :
    (x >>= f) = x.bind f := rfl
@[simp] theorem pure_eq (a : α) : (pure a : Outcome ε α) = ok a := rfl

def ofExcept : Except ε α → Outcome ε α
  | .ok a => .ok a
  | .error e => .err e

/-- `Result::ok`. A panic gives nothing either. -/
def toOption : Outcome ε α → Option α
  | .ok a => some a
  | _ => none

/-- The result is a value. -/
def isOk : Outcome ε α → Bool
  | .ok _ => true
  | _ => false

end Outcome
