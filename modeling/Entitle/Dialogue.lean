/-!
# Dialogues

A program that needs the world outside asks for something and goes on with the reply. What the
world may do is left open: a program is a tree with one branch for every possible reply, and a
handler, in any monad, chooses the branch.

## Main definitions

* `Dialogue`: programs that ask requests of a type `Op` and are given replies of the type
  `Reply op`.
* `Dialogue.request`: ask once.
* `Dialogue.guarded`: a program that does not go on from every reply.
* `Dialogue.interpret`: run a program with a handler.

## Main statements

* `Dialogue.bind_assoc`, `Dialogue.bind_pure`: the laws of a monad.
* `Dialogue.interpret_bind`: the handler of a sequence runs the parts one after the other.
-/
namespace Entitle

/-- A program that is done, or asks and goes on with the reply. -/
inductive Dialogue (Op : Type) (Reply : Op → Type) (α : Type) where
  | done (a : α)
  | ask (op : Op) (next : Reply op → Dialogue Op Reply α)

namespace Dialogue

variable {Op : Type} {Reply : Op → Type} {α β γ : Type}

/-! ## The monad -/

/-- Go on with the result of a program. -/
def bind (p : Dialogue Op Reply α) (f : α → Dialogue Op Reply β) : Dialogue Op Reply β :=
  match p with
  | done a => f a
  | ask op next => ask op fun reply => (next reply).bind f

instance : Monad (Dialogue Op Reply) where
  pure := done
  bind := bind

@[simp] theorem pure_eq (a : α) : (pure a : Dialogue Op Reply α) = done a := rfl

@[simp] theorem done_bind (a : α) (f : α → Dialogue Op Reply β) : (done a >>= f) = f a := rfl

@[simp] theorem ask_bind (op : Op) (next : Reply op → Dialogue Op Reply α)
    (f : α → Dialogue Op Reply β) :
    (ask op next >>= f) = ask op fun reply => next reply >>= f := rfl

theorem bind_pure (p : Dialogue Op Reply α) : p >>= pure = p := by
  induction p with
  | done a => rfl
  | ask op next ih =>
    rw [ask_bind]
    congr 1
    funext reply
    exact ih reply

theorem bind_assoc (p : Dialogue Op Reply α) (f : α → Dialogue Op Reply β)
    (g : β → Dialogue Op Reply γ) : p >>= f >>= g = p >>= fun a => f a >>= g := by
  induction p with
  | done a => rfl
  | ask op next ih =>
    simp only [ask_bind]
    congr 1
    funext reply
    exact ih reply

instance : LawfulMonad (Dialogue Op Reply) :=
  .mk' _ (fun p => bind_pure p) (fun _ _ => rfl) bind_assoc

/-- Ask once. -/
def request (op : Op) : Dialogue Op Reply (Reply op) :=
  ask op done

/-- The program that breaks off, without a result, at the first reply that is not accepted. -/
def guarded (accepts : (op : Op) → Reply op → Bool) :
    Dialogue Op Reply α → Dialogue Op Reply (Option α)
  | done a => done (some a)
  | ask op next => ask op fun reply =>
    if accepts op reply then (next reply).guarded accepts else done none

/-! ## Handlers -/

/-- Run a program: the handler replies to every request. -/
def interpret {m : Type → Type} [Monad m] (answer : (op : Op) → m (Reply op)) :
    Dialogue Op Reply α → m α
  | done a => pure a
  | ask op next => answer op >>= fun reply => (next reply).interpret answer

section

variable {m : Type → Type} [Monad m] (answer : (op : Op) → m (Reply op))

@[simp] theorem interpret_done (a : α) :
    (done a : Dialogue Op Reply α).interpret answer = pure a := rfl

@[simp] theorem interpret_ask (op : Op) (next : Reply op → Dialogue Op Reply α) :
    (ask op next).interpret answer =
      answer op >>= fun reply => (next reply).interpret answer := rfl

theorem interpret_bind [LawfulMonad m] (p : Dialogue Op Reply α)
    (f : α → Dialogue Op Reply β) :
    (p >>= f).interpret answer =
      p.interpret answer >>= fun a => (f a).interpret answer := by
  induction p with
  | done a => simp
  | ask op next ih => simp [ih]

end

end Dialogue

end Entitle
