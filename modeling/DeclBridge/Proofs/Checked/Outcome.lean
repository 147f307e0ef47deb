import Mathlib

/-!
Computations in which everything that can break down is an outcome of its own: reading outside of a
list, subtracting too much, cutting a text inside a character, counting beyond 32 bits. A loop that
never ends has no outcome at all.

A computation of this kind agrees with one that only gives values and errors if it gives the same of
these, so that it neither breaks down nor runs forever.
-/

namespace DeclBridge

/-- How a computation breaks down. -/
inductive Panic where
  | index
  | underflow
  | boundary
  | overflow
deriving DecidableEq, Repr

/-- A computation that gives a value or an error of its own, breaks down or never ends. -/
abbrev Exec (ε α : Type) := ExceptT ε (ExceptT Panic Option) α

namespace Exec

variable {ε δ α β γ : Type}

/-- The computation that breaks down. -/
def panic (p : Panic) : Exec ε α := ExceptT.mk (ExceptT.mk (some (.error p)))

/-- The computation that neither breaks down nor runs forever. -/
def ofExcept (x : Except ε α) : Exec ε α := ExceptT.mk (pure x)

/-- The value or the error of a computation, taken as a value. -/
def attempt (x : Exec ε α) : Exec δ (Except ε α) := ExceptT.lift x.run

def get (xs : List α) (i : Nat) : Exec ε α :=
  match xs[i]? with
  | some x => pure x
  | none => panic .index

/-- The elements of a list from one place up to another. -/
def slice (xs : List α) (first last : Nat) : Exec ε (List α) :=
  if first ≤ last ∧ last ≤ xs.length then pure ((xs.drop first).take (last - first))
  else panic .index

/-- The list with one more element at a place. -/
def insert (xs : List α) (i : Nat) (x : α) : Exec ε (List α) :=
  if i ≤ xs.length then pure (xs.insertIdx i x) else panic .index

/-- The difference of two numbers without a sign. -/
def sub (m n : Nat) : Exec ε Nat :=
  if n ≤ m then pure (m - n) else panic .underflow

/-- A number that has to fit into 32 bits. -/
def word (n : Nat) : Exec ε Nat :=
  if n < 2 ^ 32 then pure n else panic .overflow

theorem get_of_getElem? {xs : List α} {i : Nat} {x : α} (h : xs[i]? = some x) :
    get xs i = (pure x : Exec ε α) := by
  rw [get, h]

theorem slice_append {xs ys zs : List α} {first last : Nat} (hfirst : xs.length = first)
    (hlast : first + ys.length = last) :
    slice (xs ++ ys ++ zs) first last = (pure ys : Exec ε (List α)) := by
  subst hfirst hlast
  rw [slice, if_pos ⟨by omega, by simp only [List.length_append]; omega⟩, List.append_assoc,
    List.drop_left, Nat.add_sub_cancel_left, List.take_left]

theorem insert_append (xs ys : List α) (x : α) :
    insert (xs ++ ys) xs.length x = (pure (xs ++ x :: ys) : Exec ε (List α)) := by
  have hinsert : (xs ++ ys).insertIdx xs.length x = xs ++ x :: ys := by
    induction xs with
    | nil => rfl
    | cons _ _ ih => exact congrArg _ ih
  rw [insert, if_pos (by simp), hinsert]

theorem sub_of_le {m n : Nat} (h : n ≤ m) : sub m n = (pure (m - n) : Exec ε Nat) :=
  if_pos h

theorem word_of_lt {n : Nat} (h : n < 2 ^ 32) : word n = (pure n : Exec ε Nat) :=
  if_pos h

@[simp]
theorem ofExcept_ok (a : α) : ofExcept (.ok a : Except ε α) = pure a := rfl

@[simp]
theorem ofExcept_error (e : ε) : ofExcept (.error e : Except ε α) = throw e := rfl

theorem ofExcept_bind (x : Except ε α) (f : α → Except ε β) :
    ofExcept (x >>= f) = ofExcept x >>= fun a => ofExcept (f a) := by
  cases x <;> rfl

@[simp]
theorem attempt_ofExcept (x : Except ε α) : attempt (ofExcept x) = (pure x : Exec δ _) := rfl

theorem adapt_ofExcept (f : ε → δ) (x : Except ε α) :
    ExceptT.adapt f (ofExcept x) = ofExcept (x.mapError f) := rfl

theorem ofExcept_ne_panic (x : Except ε α) (p : Panic) : ofExcept x ≠ panic p := by
  intro h
  cases Option.some.inj h

/-- A computation gives a value that `R` relates to that of another, or the same error. -/
def Agrees (R : α → β → Prop) (x : Exec ε α) : Except ε β → Prop
  | .ok b => ∃ a, x = pure a ∧ R a b
  | .error e => x = throw e

namespace Agrees

variable {R : α → β → Prop} {x : Exec ε α} {y : Except ε β}

theorem pure {a : α} {b : β} (h : R a b) : Agrees R (Pure.pure a : Exec ε α) (.ok b) :=
  ⟨a, rfl, h⟩

theorem throw (e : ε) : Agrees R (MonadExcept.throw e) (.error e) := rfl

theorem bind {S : γ → δ → Prop} {f : α → Exec ε γ} {g : β → Except ε δ} (h : Agrees R x y)
    (hnext : ∀ a b, R a b → Agrees S (f a) (g b)) : Agrees S (x >>= f) (y >>= g) := by
  cases y with
  | error e =>
      cases h
      rfl
  | ok b =>
      obtain ⟨a, rfl, hab⟩ := h
      rw [pure_bind]
      exact hnext a b hab

theorem map_right {S : α → γ → Prop} {g : β → γ} (h : Agrees R x y)
    (hnext : ∀ a b, R a b → S a (g b)) : Agrees S x (y >>= fun b => Pure.pure (g b)) := by
  rw [← bind_pure x]
  exact h.bind fun a b hab => .pure (hnext a b hab)

theorem eq_ofExcept {y : Except ε α} (h : Agrees (· = ·) x y) : x = ofExcept y := by
  cases y with
  | error e => exact h
  | ok b =>
      obtain ⟨a, rfl, rfl⟩ := h
      rfl

end Agrees

end Exec

/-- A text that is walked over by an index. -/
abbrev Checked.Chars := List Char

end DeclBridge
