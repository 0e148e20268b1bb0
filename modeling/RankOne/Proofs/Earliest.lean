import Mathlib.Data.List.Lex

/-! Searches that stop at the first thing they find. What can be found has a place, and
places are compared lexicographically; a search is right when its answer is found at the
least place. Searches that run one after the other, or through a list, are right when
their parts are. -/
namespace RankOne

variable {α β : Type}

/-- The answer of a search among what is found at places: what is found at the least place,
or nothing where nothing is found at all. -/
inductive Earliest (found : List Nat → β → Prop) : Option β → Prop
  | nothing (h : ∀ p b, ¬ found p b) : Earliest found none
  | first {p : List Nat} {b : β} (h : found p b) (least : ∀ q d, found q d → p ≤ q) :
      Earliest found (some b)

/-- What is found at the least of the places where something is found. -/
def FoundFirst (found : List Nat → β → Prop) (b : β) : Prop :=
  ∃ p, found p b ∧ ∀ q d, found q d → p ≤ q

/-- A search that finds nothing but for one element finds what it finds for that one. -/
theorem findSome?_eq_of_forall_ne {xs : List α} {f : α → Option β} {a : α}
    (ha : a ∈ xs) (hrest : ∀ x ∈ xs, x ≠ a → f x = none) : xs.findSome? f = f a := by
  cases hfind : xs.findSome? f with
  | none => exact (List.findSome?_eq_none_iff.mp hfind a ha).symm
  | some b =>
    obtain ⟨x, hx, hfound⟩ := List.exists_of_findSome?_eq_some hfind
    have heq : x = a := by
      by_contra hne
      rw [hrest x hx hne] at hfound
      cases hfound
    rw [← heq, hfound]

/-- Of two places, the one with the lower first number comes first. -/
theorem cons_le_cons_of_lt {m n : Nat} (h : m < n) (p q : List Nat) : m :: p ≤ n :: q :=
  le_of_lt (List.Lex.rel h)

theorem cons_le_cons_iff {m n : Nat} {p q : List Nat} :
    m :: p ≤ n :: q ↔ m < n ∨ m = n ∧ p ≤ q := by
  -- The library lemma of this name is about the core `≤`, not that of the linear order on lists.
  rw [le_iff_lt_or_eq, le_iff_lt_or_eq, List.cons_lt_cons_iff, List.cons.injEq, or_assoc,
    ← and_or_left]

namespace Earliest

variable {found other : List Nat → β → Prop} {a b : Option β}

theorem congr (ha : Earliest found a) (h : ∀ p x, found p x ↔ other p x) : Earliest other a := by
  have heq : found = other := funext fun p => funext fun x => propext (h p x)
  exact heq ▸ ha

theorem eq_none_iff (ha : Earliest found a) : a = none ↔ ∀ p x, ¬ found p x := by
  cases ha with
  | nothing h => exact ⟨fun _ => h, fun _ => rfl⟩
  | @first p x h least => exact ⟨fun heq => (by cases heq), fun hnone => absurd h (hnone p x)⟩

/-- Where at most one thing is found at any place, the answer is what is found first. -/
theorem eq_some_iff (ha : Earliest found a) (hunique : ∀ p x y, found p x → found p y → x = y)
    {x : β} : a = some x ↔ FoundFirst found x := by
  cases ha with
  | nothing h =>
    refine ⟨fun heq => (by cases heq), fun hfirst => ?_⟩
    obtain ⟨p, hp, -⟩ := hfirst
    exact absurd hp (h p x)
  | @first q y h least =>
    constructor
    · intro heq
      obtain rfl := Option.some.inj heq
      exact ⟨q, h, least⟩
    · intro hfirst
      obtain ⟨p, hp, hleast⟩ := hfirst
      -- Each of the two places comes no later than the other, so they are the same.
      have hplace : q = p := le_antisymm (least p x hp) (hleast q y h)
      rw [hunique p x y hp (hplace ▸ h)]

/-- A search in a part of a whole; the places in the part all begin with the same number. -/
theorem cons (n : Nat) (ha : Earliest found a) :
    Earliest (fun p x => ∃ q, p = n :: q ∧ found q x) a := by
  cases ha with
  | nothing h =>
    refine nothing ?_
    intro p x hfound
    rcases hfound with ⟨q, rfl, hq⟩
    exact h q x hq
  | @first p x h least =>
    refine first ⟨p, rfl, h⟩ ?_
    intro p y hfound
    rcases hfound with ⟨q, rfl, hq⟩
    exact List.cons_le_cons n (least q y hq)

/-- Two searches, the second of which matters only where the first finds nothing. -/
theorem or (ha : Earliest found a) (hb : Earliest other b)
    (hle : ∀ p x q y, found p x → other q y → p ≤ q) :
    Earliest (fun p x => found p x ∨ other p x) (a.or b) := by
  cases ha with
  | nothing h =>
    refine hb.congr fun p x => ?_
    exact ⟨.inr, fun hx => hx.resolve_left (h p x)⟩
  | @first p x h least =>
    refine first (.inl h) ?_
    intro q y hfound
    rcases hfound with hq | hq
    · exact least q y hq
    · exact hle p x q y h hq

/-- A search through a list, whose elements have increasing numbers. -/
theorem findSome? {xs : List α} {number : α → Nat} (hxs : xs.Pairwise (number · < number ·))
    {search : α → Option β} {found : α → List Nat → β → Prop}
    (h : ∀ x ∈ xs, Earliest (found x) (search x)) :
    Earliest (fun p b => ∃ x ∈ xs, ∃ q, p = number x :: q ∧ found x q b)
      (xs.findSome? search) := by
  induction xs with
  | nil =>
    refine nothing ?_
    intro p b hfound
    rcases hfound with ⟨x, hx, _⟩
    cases hx
  | cons x xs ih =>
    obtain ⟨hlt, hxs⟩ := List.pairwise_cons.mp hxs
    have hrest := ih hxs fun y hy => h y (List.mem_cons_of_mem _ hy)
    have hboth := ((h x (by simp)).cons (number x)).or hrest (by
      intro p b q d hfound hother
      rcases hfound with ⟨p, rfl, _⟩
      obtain ⟨y, hy, q, rfl, _⟩ := hother
      exact cons_le_cons_of_lt (hlt y hy) p q)
    have hsearch : (x :: xs).findSome? search = (search x).or (xs.findSome? search) := by
      rw [List.findSome?_cons]
      cases search x <;> rfl
    rw [hsearch]
    refine hboth.congr fun p b => ?_
    simp only [List.mem_cons, exists_eq_or_imp]

/-- A search through a list, whose elements are numbered from zero. -/
theorem findSome?_zipIdx {xs : List α} {search : α × Nat → Option β}
    {found : α → Nat → List Nat → β → Prop}
    (h : ∀ x i, xs[i]? = some x → Earliest (found x i) (search (x, i))) :
    Earliest (fun p b => ∃ (i : Nat) (x : α) (q : List Nat),
        xs[i]? = some x ∧ p = i :: q ∧ found x i q b)
      (xs.zipIdx.findSome? search) := by
  have hnumbers : xs.zipIdx.Pairwise (fun x y => x.2 < y.2) := by
    have hmap : (xs.zipIdx.map Prod.snd).Pairwise (· < ·) := by
      rw [List.zipIdx_map_snd]
      exact List.pairwise_lt_range'
    exact List.pairwise_map.mp hmap
  have helement : ∀ x ∈ xs.zipIdx, Earliest (found x.1 x.2) (search x) :=
    fun x hx => h x.1 x.2 (List.mem_zipIdx_iff_getElem?.mp hx)
  have hfind := findSome? hnumbers helement
  refine hfind.congr fun p b => ?_
  constructor
  · intro hfound
    rcases hfound with ⟨⟨x, i⟩, hx, q, rfl, hf⟩
    exact ⟨i, x, q, List.mem_zipIdx_iff_getElem?.mp hx, rfl, hf⟩
  · intro hfound
    rcases hfound with ⟨i, x, q, hx, rfl, hf⟩
    exact ⟨(x, i), List.mem_zipIdx_iff_getElem?.mpr hx, q, rfl, hf⟩

/-- A search through a list, in which an element is known by its index only. -/
theorem findSome?_index {xs : List α} {search : α → Option β} {found : α → List Nat → β → Prop}
    (h : ∀ x, Earliest (found x) (search x)) :
    Earliest (fun p b => ∃ (i : Nat) (x : α) (q : List Nat),
        xs[i]? = some x ∧ p = i :: q ∧ found x q b)
      (xs.findSome? search) := by
  have hzip : xs.findSome? search = xs.zipIdx.findSome? fun x => search x.1 := by
    conv_lhs => rw [← List.zipIdx_map_fst 0 xs]
    exact List.findSome?_map
  rw [hzip]
  exact findSome?_zipIdx fun x _ _ => h x

end Earliest
end RankOne
