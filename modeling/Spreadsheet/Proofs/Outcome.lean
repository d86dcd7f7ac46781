import Mathlib.Data.List.Forall2
import Spreadsheet.Value

namespace Spreadsheet

namespace Outcome

section Success

variable {ε α β : Type} {x : Except ε α} {f : α → Except ε β}

lemma bind_eq_ok {b : β} : x >>= f = .ok b ↔ ∃ a, x = .ok a ∧ f a = .ok b := by
  cases x <;> simp [bind, Except.bind]

lemma forall₂_of_mapM_eq_ok {xs : List α} {ys : List β} (h : xs.mapM f = .ok ys) :
    List.Forall₂ (fun x y => f x = .ok y) xs ys := by
  induction xs generalizing ys with
  | nil =>
    cases h
    exact .nil
  | cons x xs ih =>
    rw [List.mapM_cons] at h
    obtain ⟨y, hy, h⟩ := bind_eq_ok.mp h
    obtain ⟨zs, hz, h⟩ := bind_eq_ok.mp h
    cases h
    exact .cons hy (ih hz)

lemma of_mapM_eq_ok {xs : List α} {ys : List β} (h : xs.mapM f = .ok ys) :
    ∀ x ∈ xs, ∃ y, f x = .ok y := by
  intro x hx
  obtain ⟨i, rfl⟩ := List.mem_iff_get.mp hx
  have hf : List.Forall₂ (fun x y => f x = .ok y) xs ys := forall₂_of_mapM_eq_ok h
  exact ⟨_, hf.get i.2 (Nat.lt_of_lt_of_eq i.2 hf.length_eq)⟩

lemma exists_of_mapM_eq_ok {xs : List α} {ys : List β} (h : xs.mapM f = .ok ys) :
    ∀ y ∈ ys, ∃ x ∈ xs, f x = .ok y := by
  intro y hy
  obtain ⟨i, rfl⟩ := List.mem_iff_get.mp hy
  have hf : List.Forall₂ (fun x y => f x = .ok y) xs ys := forall₂_of_mapM_eq_ok h
  have hi : i < xs.length := Nat.lt_of_lt_of_eq i.2 hf.length_eq.symm
  exact ⟨_, List.get_mem xs ⟨i, hi⟩, hf.get hi i.2⟩

end Success

variable {α β : Type} {x : Outcome α} {f g : α → Outcome β}

def SameUpTo (allowed : CellError → Prop) (x y : Outcome α) : Prop :=
  y = x ∨ ∃ code, allowed code ∧ y = .error code

section SameUpTo

variable {allowed : CellError → Prop} {y : Outcome α}

lemma SameUpTo.refl (x : Outcome α) : SameUpTo allowed x x :=
  Or.inl rfl

lemma SameUpTo.bind (h : SameUpTo allowed x y)
    (hf : ∀ a, x = .ok a → SameUpTo allowed (f a) (g a)) :
    SameUpTo allowed (x >>= f) (y >>= g) := by
  rcases h with rfl | ⟨code, hc, rfl⟩
  · cases y with
    | error code => exact .refl _
    | ok a => exact hf a rfl
  · exact Or.inr ⟨code, hc, rfl⟩

lemma SameUpTo.mapM {xs : List α} (h : ∀ x ∈ xs, SameUpTo allowed (f x) (g x)) :
    SameUpTo allowed (xs.mapM f) (xs.mapM g) := by
  induction xs with
  | nil => exact .refl _
  | cons x xs ih =>
    rw [List.mapM_cons, List.mapM_cons]
    refine (h x List.mem_cons_self).bind fun a _ => ?_
    exact (ih fun y hy => h y (List.mem_cons_of_mem _ hy)).bind fun as _ => .refl _

end SameUpTo

def FailsOnly (allowed : CellError → Prop) (x : Outcome α) : Prop :=
  ∀ code, x = .error code → allowed code

section FailsOnly

variable {allowed : CellError → Prop}

lemma FailsOnly.ok (a : α) : FailsOnly allowed (.ok a : Outcome α) := by
  intro code h
  cases h

lemma FailsOnly.error {code : CellError} (h : allowed code) :
    FailsOnly allowed (.error code : Outcome α) := by
  intro code' he
  cases he
  exact h

lemma FailsOnly.mono {more : CellError → Prop} (h : FailsOnly allowed x)
    (hs : ∀ code, allowed code → more code) : FailsOnly more x :=
  fun code hc => hs code (h code hc)

lemma FailsOnly.bind (h : FailsOnly allowed x) (hf : ∀ a, x = .ok a → FailsOnly allowed (f a)) :
    FailsOnly allowed (x >>= f) := by
  cases x with
  | error code => exact .error (h code rfl)
  | ok a => exact hf a rfl

lemma FailsOnly.mapM {xs : List α} (h : ∀ x ∈ xs, FailsOnly allowed (f x)) :
    FailsOnly allowed (xs.mapM f) := by
  induction xs with
  | nil => exact .ok _
  | cons x xs ih =>
    rw [List.mapM_cons]
    refine (h x List.mem_cons_self).bind fun a _ => ?_
    exact (ih fun y hy => h y (List.mem_cons_of_mem _ hy)).bind fun as _ => .ok _

end FailsOnly

end Outcome

end Spreadsheet
