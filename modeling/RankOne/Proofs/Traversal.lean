import Mathlib.Data.List.Forall2

/-! Computations that may be refused, and visits of a list with such a computation. A
visit succeeds exactly when it succeeds on every element, and its results stand in the
order of the list; it is refused for what the first element is refused for that is. -/
namespace RankOne

variable {ε α β γ : Type}

theorem bind_eq_ok_iff {x : Except ε α} {f : α → Except ε β} {b : β} :
    (x >>= f) = .ok b ↔ ∃ a, x = .ok a ∧ f a = .ok b := by
  cases x with
  | error e => exact ⟨fun h => (by cases h), fun ⟨_, h, _⟩ => (by cases h)⟩
  | ok a => exact ⟨fun h => ⟨a, rfl, h⟩, fun ⟨_, h, hf⟩ => (by cases h; exact hf)⟩

theorem pure_eq_ok_iff {a b : α} : (pure a : Except ε α) = .ok b ↔ b = a :=
  ⟨fun h => (Except.ok.inj h).symm, fun h => h ▸ rfl⟩

theorem mapM_eq_ok_iff {f : α → Except ε β} {xs : List α} {ys : List β} :
    xs.mapM f = .ok ys ↔ List.Forall₂ (fun x y => f x = .ok y) xs ys := by
  induction xs generalizing ys with
  | nil => rw [List.mapM_nil, pure_eq_ok_iff, List.forall₂_nil_left_iff]
  | cons x xs ih =>
    simp only [List.mapM_cons, bind_eq_ok_iff, pure_eq_ok_iff, ih, List.forall₂_cons_left_iff]
    constructor
    · intro h
      obtain ⟨y, hy, rest, hrest, rfl⟩ := h
      exact ⟨y, rest, hy, hrest, rfl⟩
    · intro h
      obtain ⟨y, rest, hy, hrest, rfl⟩ := h
      exact ⟨y, hy, rest, hrest, rfl⟩

theorem exists_of_mem_right {R : α → β → Prop} {xs : List α} {ys : List β}
    (h : List.Forall₂ R xs ys) {y : β} (hy : y ∈ ys) : ∃ x ∈ xs, R x y := by
  induction h with
  | nil => cases hy
  | @cons a b as bs hab _ ih =>
    rcases List.mem_cons.mp hy with rfl | hy
    · exact ⟨a, by simp, hab⟩
    · obtain ⟨x, hx, hxy⟩ := ih hy
      exact ⟨x, by simp [hx], hxy⟩

/-- Results that can each be read back can be read back together. -/
theorem exists_mapM_eq_some {R : α → β → Prop} {S : α → γ → Prop} {read : β → Option γ}
    {xs : List α} {ys : List β} (h : List.Forall₂ R xs ys)
    (hread : ∀ x y, R x y → ∃ z, read y = some z ∧ S x z) :
    ∃ zs, ys.mapM read = some zs ∧ List.Forall₂ S xs zs := by
  induction h with
  | nil => exact ⟨[], rfl, .nil⟩
  | cons hxy _ ih =>
    obtain ⟨z, hz, hS⟩ := hread _ _ hxy
    obtain ⟨zs, hzs, hSs⟩ := ih
    exact ⟨z :: zs, by simp [hz, hzs], .cons hS hSs⟩

/-! ## Refusals -/

/-- What a computation is refused for. -/
def refusal? : Except ε α → Option ε
  | .ok _ => none
  | .error e => some e

section

variable {r : Except ε α}

theorem refusal?_eq_none_iff : refusal? r = none ↔ ∃ a, r = .ok a := by
  cases r <;> simp [refusal?]

theorem refusal?_eq_some_iff {e : ε} : refusal? r = some e ↔ r = .error e := by
  cases r <;> simp [refusal?]

theorem refusal?_bind_pure {f : α → β} : refusal? (r >>= fun a => pure (f a)) = refusal? r := by
  cases r <;> rfl

theorem bind_pure_eq_error_iff {f : α → β} {e : ε} :
    (r >>= fun a => pure (f a)) = .error e ↔ r = .error e := by
  rw [← refusal?_eq_some_iff, refusal?_bind_pure, refusal?_eq_some_iff]

/-- The second of two computations is only reached where the first is not refused. -/
theorem refusal?_bind {f : α → Except ε β} {second : Option ε}
    (h : ∀ a, refusal? (f a) = second) : refusal? (r >>= f) = (refusal? r).or second := by
  cases r with
  | ok a => exact h a
  | error e => rfl

theorem refusal?_mapM {f : α → Except ε β} {xs : List α} :
    refusal? (xs.mapM f) = xs.findSome? fun x => refusal? (f x) := by
  induction xs with
  | nil => rfl
  | cons x xs ih =>
    rw [List.mapM_cons, refusal?_bind fun _ => refusal?_bind_pure, ih, List.findSome?_cons]
    cases refusal? (f x) <;> rfl

end

end RankOne
