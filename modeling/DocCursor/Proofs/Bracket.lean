import DocCursor.Proofs.Effect

/-!
# Brackets

Words of pushes and releases, with the matching of brackets as the words alone
determine it: a release matches the push from which a balanced word leads to
it. `Pending` lists the pushes that are open at the end of a word, the
innermost first, as the decomposition of the word that they give.
-/

namespace DocCursor

namespace Call

def weight : Call → Int
  | push => 1
  | release _ => -1
  | _ => 0

def height : List Call → Int
  | [] => 0
  | a :: w => a.weight + height w

@[simp] theorem height_nil : height [] = 0 := rfl

@[simp] theorem height_push_cons (w : List Call) : height (push :: w) = 1 + height w := rfl

@[simp] theorem height_release_cons (r : Release) (w : List Call) :
    height (release r :: w) = -1 + height w := rfl

@[simp] theorem height_append (u v : List Call) : height (u ++ v) = height u + height v := by
  induction u with
  | nil => simp
  | cons a u ih =>
      simp only [List.cons_append, height, ih]
      omega

/-- Each push has its release, and the pairs nest. -/
inductive Balanced : List Call → Prop where
  | nil : Balanced []
  | pair {u v : List Call} (r : Release) (hu : Balanced u) (hv : Balanced v) :
      Balanced (push :: (u ++ release r :: v))

/-- The release at `j` matches the push at `i`: what stands between them is
balanced. -/
def Matches (w : List Call) (i j : Nat) : Prop :=
  ∃ a b d r, w = a ++ push :: (b ++ release r :: d) ∧ Balanced b ∧
    i = a.length ∧ j = a.length + b.length + 1

/-- A push without a release that matches it. -/
def Unmatched (w : List Call) (i : Nat) : Prop := w[i]? = some push ∧ ∀ j, ¬Matches w i j

def Closed (w : List Call) : Prop := ∀ i, w[i]? = some push → ∃ j, Matches w i j

/-- No prefix of the word has more releases than pushes. -/
def Rises (w : List Call) : Prop := ∀ u v, w = u ++ v → 0 ≤ height u

theorem Rises.append {u v : List Call} (hu : Rises u) (hv : Rises v) : Rises (u ++ v) := by
  intro x y hxy
  rcases List.append_eq_append_iff.mp hxy with ⟨z, rfl, hz⟩ | ⟨z, hz, -⟩
  · have hu := hu u [] (List.append_nil u).symm
    have hz := hv z y hz
    rw [height_append]
    omega
  · exact hu x z hz

theorem Rises.push_cons {u : List Call} (hu : Rises u) : Rises (push :: u) := by
  intro x y hxy
  cases x with
  | nil => exact Int.le_refl 0
  | cons a x =>
      obtain ⟨rfl, hx⟩ := List.cons.inj hxy
      have h := hu x y hx
      rw [height_push_cons]
      omega

namespace Balanced

variable {u v w : List Call}

theorem height_eq_zero (h : Balanced w) : height w = 0 := by
  induction h with
  | nil => rfl
  | pair r hu hv ihu ihv =>
      simp only [height_push_cons, height_append, height_release_cons, ihu, ihv]
      omega

theorem rises (h : Balanced w) : Rises w := by
  induction h with
  | nil =>
      intro x y hxy
      obtain ⟨rfl, -⟩ := List.append_eq_nil_iff.mp hxy.symm
      exact Int.le_refl 0
  | @pair u v r hu hv ihu ihv =>
      intro x y hxy
      have hxy : (push :: u) ++ release r :: v = x ++ y := hxy
      rcases List.append_eq_append_iff.mp hxy with ⟨z, rfl, hz⟩ | ⟨z, hz, -⟩
      · cases z with
        | nil => simp [hu.height_eq_zero]
        | cons a z =>
            obtain ⟨rfl, htail⟩ := List.cons.inj hz
            have hrest := ihv z y htail
            simp only [height_append, height_push_cons, height_release_cons, hu.height_eq_zero]
            omega
      · exact ihu.push_cons x z hz

theorem append (hu : Balanced u) (hv : Balanced v) : Balanced (u ++ v) := by
  induction hu with
  | nil => exact hv
  | @pair u₁ u₂ r hu₁ hu₂ ih₁ ih₂ =>
      have h := pair r hu₁ ih₂
      rwa [List.cons_append, List.append_assoc, List.cons_append]

end Balanced

namespace Matches

variable {w : List Call} {i j : Nat}

theorem append_left (h : Matches w i j) (x : List Call) :
    Matches (x ++ w) (x.length + i) (x.length + j) := by
  obtain ⟨a, b, d, r, rfl, hb, rfl, rfl⟩ := h
  refine ⟨x ++ a, b, d, r, (List.append_assoc ..).symm, hb, List.length_append.symm, ?_⟩
  rw [List.length_append]
  omega

theorem append_right (h : Matches w i j) (y : List Call) : Matches (w ++ y) i j := by
  obtain ⟨a, b, d, r, rfl, hb, hi, hj⟩ := h
  exact ⟨a, b, d ++ y, r, by simp, hb, hi, hj⟩

theorem lt_length (h : Matches w i j) : j < w.length := by
  obtain ⟨a, b, d, r, rfl, hb, rfl, rfl⟩ := h
  simp only [List.length_append, List.length_cons]
  omega

/-- What follows a word matches nothing inside of it. -/
theorem of_append_right {y : List Call} (h : Matches (w ++ y) i j) (hj : j < w.length) :
    Matches w i j := by
  obtain ⟨a, b, d, r, hw, hb, hi, rfl⟩ := h
  have hw : w ++ y = (a ++ push :: b) ++ release r :: d := by simpa using hw
  have hlength : (a ++ push :: b).length = a.length + b.length + 1 := by
    simp [Nat.add_assoc]
  rcases List.append_eq_append_iff.mp hw with ⟨z, hz, -⟩ | ⟨z, rfl, hz⟩
  · have hle := congrArg List.length hz
    rw [hlength, List.length_append] at hle
    omega
  · cases z with
    | nil =>
        rw [List.append_nil, hlength] at hj
        exact (Nat.lt_irrefl _ hj).elim
    | cons x z =>
        obtain ⟨rfl, -⟩ := List.cons.inj hz
        exact ⟨a, b, z, r, by simp, hb, hi, rfl⟩

end Matches

theorem Closed.append {u v : List Call} (hu : Closed u) (hv : Closed v) : Closed (u ++ v) := by
  intro i hi
  by_cases hlt : i < u.length
  · rw [List.getElem?_append_left hlt] at hi
    obtain ⟨j, hj⟩ := hu i hi
    exact ⟨j, hj.append_right v⟩
  · obtain ⟨k, rfl⟩ := Nat.exists_eq_add_of_le (Nat.not_lt.mp hlt)
    rw [List.getElem?_append_right (Nat.le_add_right _ _), Nat.add_sub_cancel_left] at hi
    obtain ⟨j, hj⟩ := hv k hi
    exact ⟨_, hj.append_left u⟩

theorem closed_release (r : Release) : Closed [release r] := by
  intro i hi
  cases i <;> cases hi

/-- In a balanced word no push is left open. -/
theorem Balanced.closed {w : List Call} (h : Balanced w) : Closed w := by
  induction h with
  | nil =>
      intro i hi
      cases hi
  | @pair u v r hu hv ihu ihv =>
      intro i hi
      cases i with
      | zero => exact ⟨_, [], u, v, r, rfl, hu, rfl, rfl⟩
      | succ i =>
          obtain ⟨j, hj⟩ := (ihu.append ((closed_release r).append ihv)) i hi
          rw [Nat.add_comm i]
          exact ⟨_, hj.append_left [push]⟩

theorem not_matches_of_rises {a u : List Call} (hu : Rises u) (j : Nat) :
    ¬Matches (a ++ push :: u) a.length j := by
  rintro ⟨a', b, d, r, hw, hb, hlen, -⟩
  obtain ⟨rfl, htail⟩ := List.append_inj hw hlen
  have hfall := hu (b ++ [release r]) d (by simpa using (List.cons.inj htail).2)
  simp only [height_append, height_release_cons, height_nil, hb.height_eq_zero] at hfall
  omega

/-! ## Open pushes -/

/-- The positions of the pushes that a word leaves open, the innermost first.
What stands between and behind them is balanced. -/
inductive Pending : List Call → List Nat → Prop where
  | base {w : List Call} (h : Closed w) : Pending w []
  | push {w b : List Call} {ks : List Nat} (h : Pending w ks) (hb : Balanced b) :
      Pending (w ++ Call.push :: b) (w.length :: ks)

namespace Pending

variable {w : List Call} {k : Nat} {ks : List Nat}

theorem snoc_push (h : Pending w ks) : Pending (w ++ [Call.push]) (w.length :: ks) :=
  h.push .nil

theorem append_balanced {b : List Call} (h : Pending w ks) (hb : Balanced b) :
    Pending (w ++ b) ks := by
  cases h with
  | base hw => exact .base (hw.append hb.closed)
  | push hw hb' =>
      rw [List.append_assoc, List.cons_append]
      exact hw.push (hb'.append hb)

theorem snoc_release (h : Pending w (k :: ks)) (r : Release) : Pending (w ++ [release r]) ks := by
  cases h with
  | @push w b _ hw hb =>
      rw [List.append_assoc, List.cons_append]
      exact hw.append_balanced (.pair r hb .nil)

/-- A release that finds no open push. -/
theorem snoc_stray (h : Pending w []) (r : Release) : Pending (w ++ [release r]) [] := by
  cases h with
  | base hw => exact .base (hw.append (closed_release r))

/-- The word behind the open push at depth `n` rises to height `n`. -/
theorem split {n : Nat} (h : Pending w ks) (hk : ks[n]? = some k) :
    ∃ a u, w = a ++ Call.push :: u ∧ a.length = k ∧ height u = n ∧ Rises u := by
  induction h generalizing n with
  | base => cases hk
  | @push w b ks hw hb ih =>
      cases n with
      | zero => exact ⟨w, b, rfl, Option.some.inj hk, hb.height_eq_zero, hb.rises⟩
      | succ n =>
          obtain ⟨a, u, rfl, ha, hu, hrises⟩ := ih hk
          refine ⟨a, u ++ Call.push :: b, by simp, ha, ?_, hrises.append hb.rises.push_cons⟩
          rw [height_append, height_push_cons, hu, hb.height_eq_zero]
          omega

theorem lt_length (h : Pending w ks) (hk : k ∈ ks) : k < w.length := by
  obtain ⟨n, hn⟩ := List.mem_iff_getElem?.mp hk
  obtain ⟨a, u, rfl, rfl, -⟩ := h.split hn
  simp

theorem pairwise_gt (h : Pending w ks) : ks.Pairwise (· > ·) := by
  induction h with
  | base => exact .nil
  | push hw hb ih => exact .cons (fun k hk => hw.lt_length hk) ih

theorem unmatched_of_mem (h : Pending w ks) (hk : k ∈ ks) : Unmatched w k := by
  obtain ⟨n, hn⟩ := List.mem_iff_getElem?.mp hk
  obtain ⟨a, u, rfl, rfl, -, hrises⟩ := h.split hn
  exact ⟨by simp, not_matches_of_rises hrises⟩

theorem mem_or_matches (h : Pending w ks) (hk : w[k]? = some Call.push) :
    k ∈ ks ∨ ∃ j, Matches w k j := by
  induction h with
  | base hw => exact Or.inr (hw k hk)
  | @push w b ks hw hb ih =>
      by_cases hlt : k < w.length
      · rw [List.getElem?_append_left hlt] at hk
        rcases ih hk with hmem | ⟨j, hj⟩
        · exact Or.inl (List.mem_cons_of_mem _ hmem)
        · exact Or.inr ⟨j, hj.append_right _⟩
      · obtain ⟨i, rfl⟩ := Nat.exists_eq_add_of_le (Nat.not_lt.mp hlt)
        rw [List.getElem?_append_right (Nat.le_add_right _ _), Nat.add_sub_cancel_left] at hk
        cases i with
        | zero => exact Or.inl List.mem_cons_self
        | succ i =>
            obtain ⟨j, hj⟩ := hb.closed i hk
            rw [Nat.add_comm i]
            exact Or.inr ⟨_, (hj.append_left [Call.push]).append_left w⟩

theorem mem_iff_unmatched (h : Pending w ks) : k ∈ ks ↔ Unmatched w k :=
  ⟨h.unmatched_of_mem, fun hk => (h.mem_or_matches hk.1).resolve_right fun ⟨j, hj⟩ => hk.2 j hj⟩

/-- A release behind the word matches the innermost open push, and no other. -/
theorem head?_of_matches {d : List Call} {a : Call} (h : Pending w ks)
    (hk : Matches (w ++ a :: d) k w.length) : ks.head? = some k := by
  obtain ⟨x, b, y, r, hw, hb, rfl, hlen⟩ := hk
  have hsplit : w = x ++ Call.push :: b := by
    have hw : w ++ a :: d = (x ++ Call.push :: b) ++ release r :: y := by simpa using hw
    exact (List.append_inj hw (by simp [hlen, Nat.add_assoc])).1
  have hmem : x.length ∈ ks := by
    subst hsplit
    exact h.mem_iff_unmatched.mpr ⟨by simp, not_matches_of_rises hb.rises⟩
  obtain ⟨n, hn⟩ := List.mem_iff_getElem?.mp hmem
  obtain ⟨a', u, hw', ha', hu, -⟩ := h.split hn
  obtain ⟨-, htail⟩ := List.append_inj (hsplit.symm.trans hw') ha'.symm
  have hzero : (n : Int) = 0 := by
    rw [← hu, ← (List.cons.inj htail).2, hb.height_eq_zero]
  rw [List.head?_eq_getElem?, ← Int.ofNat_eq_zero.mp hzero, hn]

theorem matches_head (h : Pending w (k :: ks)) (r : Release) (d : List Call) :
    Matches (w ++ release r :: d) k w.length := by
  cases h with
  | @push w b _ hw hb =>
      exact ⟨w, b, d, r, by simp, hb, rfl, by simp [Nat.add_assoc]⟩

/-- A release takes its push from the open ones. -/
theorem unmatched_snoc_release_iff {l : Nat} (h : Pending w (k :: ks)) (r : Release) :
    Unmatched (w ++ [release r]) l ↔ Unmatched w l ∧ l ≠ k := by
  obtain ⟨hgt, -⟩ := List.pairwise_cons.mp h.pairwise_gt
  rw [← (h.snoc_release r).mem_iff_unmatched, ← h.mem_iff_unmatched, List.mem_cons]
  constructor
  · intro hl
    exact ⟨Or.inr hl, Nat.ne_of_lt (hgt l hl)⟩
  · rintro ⟨rfl | hl, hne⟩
    · exact (hne rfl).elim
    · exact hl

/-- A release changes the match of no push but its own. -/
theorem matches_snoc_release_iff {l j : Nat} (h : Pending w (k :: ks)) (r : Release)
    (hl : l ≠ k) : Matches (w ++ [release r]) l j ↔ Matches w l j := by
  constructor
  · intro hmatches
    have hlt := hmatches.lt_length
    rw [List.length_append, List.length_singleton] at hlt
    rcases Nat.lt_succ_iff_lt_or_eq.mp hlt with hj | rfl
    · exact hmatches.of_append_right hj
    · have hhead := h.head?_of_matches hmatches
      exact (hl (Option.some.inj hhead).symm).elim
  · intro hmatches
    exact hmatches.append_right [release r]

end Pending

end Call

end DocCursor
