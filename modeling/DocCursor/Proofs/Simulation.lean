import DocCursor.Proofs.Attempt

/-!
# Two runs side by side

One script on two cursors, which may belong to two streams. If every call that
the script makes keeps the cursors related and gives related outcomes, then so
do the runs, step by step: their logs have one shape, with related entries.
What a step brings steers the rest of a run only through the form of its
outcome, on which related outcomes agree.
-/

namespace DocCursor

variable {s t : Stream} {α : Type}

/-- Outcomes of one form, with related contents. -/
inductive Outcome.Alike {ε β : Type} (F : ε → ε → Prop) (B : β → β → Prop) :
    Outcome ε β → Outcome ε β → Prop where
  | done {b b' : β} (h : B b b') : Alike F B (.done b) (.done b')
  | failed {f f' : ε} (h : F f f') : Alike F B (.failed f) (.failed f')
  | unmatched (r : Release) : Alike F B (.unmatched r) (.unmatched r)

/-- Logs of one shape, in which all cursors, answers and failures are related. -/
inductive Log.Alike (R : Cursor s → Cursor t → Prop) (A : Answer → Answer → Prop)
    (F : Failure → Failure → Prop) : Log s α → Log t α → Prop where
  | nil : Alike R A F nil nil
  | call (a : Call) {o o' : Outcome Failure Answer} {c : Cursor s} {d : Cursor t}
      {l : Log s α} {m : Log t α} (houtcome : o.Alike F A o') (hcursor : R c d)
      (hrest : Alike R A F l m) : Alike R A F (call a o c l) (call a o' d m)
  | give (value : α) {c : Cursor s} {d : Cursor t} {l : Log s α} {m : Log t α}
      (hcursor : R c d) (hrest : Alike R A F l m) : Alike R A F (give value c l) (give value d m)
  | attempt {o o' : Outcome Failure (Option α)} {c : Cursor s} {d : Cursor t}
      {i l : Log s α} {j m : Log t α} (hinner : Alike R A F i j) (houtcome : o.Alike F Eq o')
      (hcursor : R c d) (hrest : Alike R A F l m) : Alike R A F (attempt i o c l) (attempt j o' d m)
  | fork {o o' : Outcome Failure (Option α)} {c : Cursor s} {d : Cursor t}
      {i l : Log s α} {j m : Log t α} (hinner : Alike R A F i j) (houtcome : o.Alike F Eq o')
      (hcursor : R c d) (hrest : Alike R A F l m) : Alike R A F (fork i o c l) (fork j o' d m)

structure Run.Alike (R : Cursor s → Cursor t → Prop) (A : Answer → Answer → Prop)
    (F : Failure → Failure → Prop) (x : Run s α) (y : Run t α) : Prop where
  log : x.log.Alike R A F y.log
  cursor : R x.cursor y.cursor
  ending : x.ending.Alike F Eq y.ending

variable {R R' : Cursor s → Cursor t → Prop} {A : Answer → Answer → Prop}
  {F : Failure → Failure → Prop}

theorem Log.Alike.mono {l : Log s α} {m : Log t α} (h : l.Alike R A F m)
    (hR : ∀ c d, R c d → R' c d) : l.Alike R' A F m := by
  induction h with
  | nil => exact .nil
  | call a houtcome hcursor hrest ih => exact .call a houtcome (hR _ _ hcursor) ih
  | give value hcursor hrest ih => exact .give value (hR _ _ hcursor) ih
  | attempt hinner houtcome hcursor hrest ihInner ih =>
      exact .attempt ihInner houtcome (hR _ _ hcursor) ih
  | fork hinner houtcome hcursor hrest ihInner ih =>
      exact .fork ihInner houtcome (hR _ _ hcursor) ih

theorem Run.Alike.mono {x : Run s α} {y : Run t α} (h : x.Alike R A F y)
    (hR : ∀ c d, R c d → R' c d) : x.Alike R' A F y where
  log := h.log.mono hR
  cursor := hR _ _ h.cursor
  ending := h.ending

theorem Mode.ending?_alike {β : Type} {B : β → β → Prop} {o o' : Outcome Failure β}
    (mode : Mode) (caught : Bool) (h : o.Alike F B o') :
    ((mode.ending? caught o : Option (Outcome Failure α)) = none ∧
      (mode.ending? caught o' : Option (Outcome Failure α)) = none) ∨
    ∃ e e' : Outcome Failure α, mode.ending? caught o = some e ∧
      mode.ending? caught o' = some e' ∧ e.Alike F Eq e' := by
  cases h with
  | done h => exact Or.inl ⟨rfl, rfl⟩
  | @failed f f' h =>
      by_cases hends : mode = .strict ∧ !caught
      · exact Or.inr ⟨.failed f, .failed f', if_pos hends, if_pos hends, .failed h⟩
      · exact Or.inl ⟨if_neg hends, if_neg hends⟩
  | unmatched r => exact Or.inr ⟨.unmatched r, .unmatched r, rfl, rfl, .unmatched r⟩

/-- The calls of a kind, and all pushes and releases, keep cursors related. -/
structure Simulates (R : Cursor s → Cursor t → Prop) (A : Answer → Answer → Prop)
    (F : Failure → Failure → Prop) (allowed : Call → Prop) : Prop where
  perform : ∀ a, allowed a → ∀ c d, R c d →
    (a.perform c).1.Alike F A (a.perform d).1 ∧ R (a.perform c).2 (a.perform d).2
  brackets : ∀ a : Call, a.isBracket = true → allowed a

namespace Simulates

variable {allowed : Call → Prop} {c : Cursor s} {d : Cursor t}

theorem push (h : Simulates R A F allowed) (hcd : R c d) : R c.push d.push :=
  (h.perform .push (h.brackets .push rfl) c d hcd).2

/-- A release finds a save point in both cursors, or in neither. -/
theorem release? (h : Simulates R A F allowed) (hcd : R c d) (r : Release) :
    (c.release? r = none ∧ d.release? r = none) ∨
      ∃ c' d', c.release? r = some c' ∧ d.release? r = some d' ∧ R c' d' := by
  have hrelease := h.perform (.release r) (h.brackets _ rfl) c d hcd
  simp only [Call.perform] at hrelease
  -- Where only one of them finds one, a done release would be like an unmatched one.
  cases hc : c.release? r with
  | none =>
      cases hd : d.release? r with
      | none => exact Or.inl ⟨rfl, rfl⟩
      | some d' =>
          rw [hc, hd] at hrelease
          cases hrelease.1
  | some c' =>
      cases hd : d.release? r with
      | none =>
          rw [hc, hd] at hrelease
          cases hrelease.1
      | some d' =>
          rw [hc, hd] at hrelease
          exact Or.inr ⟨c', d', rfl, rfl, hrelease.2⟩

theorem close (h : Simulates R A F allowed) (hcd : R c d) {o o' : Outcome Failure (Option α)}
    (ho : o.Alike F Eq o') :
    (c.close o).1.Alike F Eq (d.close o').1 ∧ R (c.close o).2 (d.close o').2 := by
  cases ho with
  | @done v v' hv =>
      simp only [Cursor.close]
      obtain ⟨hc, hd⟩ | ⟨c', d', hc, hd, hcd'⟩ := h.release? hcd .drop
      · rw [hc, hd]
        exact ⟨.unmatched .drop, hcd⟩
      · rw [hc, hd]
        exact ⟨.done hv, hcd'⟩
  | @failed f f' hf =>
      simp only [Cursor.close]
      obtain ⟨hc, hd⟩ | ⟨c', d', hc, hd, hcd'⟩ := h.release? hcd .rollback
      · rw [hc, hd]
        exact ⟨.unmatched .rollback, hcd⟩
      · rw [hc, hd]
        exact ⟨.failed hf, hcd'⟩
  | unmatched r => exact ⟨.unmatched r, hcd⟩

/-- Either both runs go on behind a step, with rests that are alike, or both end
there alike. -/
theorem proceed {β : Type} {B : β → β → Prop} {o o' : Outcome Failure β} {mode : Mode}
    {caught : Bool} {x : Run s α} {y : Run t α} {entry : Log s α → Log s α}
    {entry' : Log t α → Log t α} (houtcome : o.Alike F B o') (hcd : R c d)
    (hrest : (mode.ending? caught o : Option (Outcome Failure (Option α))) = none → x.Alike R A F y)
    (hentry : ∀ l m, l.Alike R A F m → (entry l).Alike R A F (entry' m)) :
    Run.Alike R A F
      (match mode.ending? caught o with
        | some ending => ⟨entry .nil, c, ending⟩
        | none => { x with log := entry x.log })
      (match mode.ending? caught o' with
        | some ending => ⟨entry' .nil, d, ending⟩
        | none => { y with log := entry' y.log }) := by
  obtain ⟨hx, hy⟩ | ⟨e, e', hx, hy, hending⟩ :=
    Mode.ending?_alike (α := Option α) mode caught houtcome
  · have hgoes := hrest hx
    rw [hx, hy]
    exact ⟨hentry _ _ hgoes.log, hgoes.cursor, hgoes.ending⟩
  · rw [hx, hy]
    exact ⟨hentry _ _ .nil, hcd, hending⟩

/-- Related cursors stay related through whole runs. -/
theorem run_alike (h : Simulates R A F allowed) (p : Script α) (hp : ∀ a ∈ p.calls, allowed a)
    (mode : Mode) (hcd : R c d) : (p.run mode c).Alike R A F (p.run mode d) := by
  -- A body runs from the cursor behind a push, a copy from the cursor itself.
  induction p generalizing mode c d with
  | done => exact ⟨.nil, hcd, .done rfl⟩
  | call a caught rest ih =>
      obtain ⟨ha, hrest⟩ := List.forall_mem_cons.mp hp
      obtain ⟨houtcome, hcursor⟩ := h.perform a ha c d hcd
      apply proceed houtcome hcursor fun _ => ih hrest mode hcursor
      exact fun l m hlm => .call a houtcome hcursor hlm
  | give value rest ih =>
      cases mode with
      | strict => exact ⟨.give value hcd .nil, hcd, .done rfl⟩
      | lenient =>
          have hafter := ih hp .lenient hcd
          exact ⟨.give value hcd hafter.log, hafter.cursor, hafter.ending⟩
  | attempt body caught rest ihBody ih =>
      obtain ⟨hbody, hrest⟩ := List.forall_mem_append.mp hp
      have hinner := ihBody hbody .strict (h.push hcd)
      obtain ⟨houtcome, hcursor⟩ := h.close hinner.cursor hinner.ending
      apply proceed houtcome hcursor fun _ => ih hrest mode hcursor
      exact fun l m hlm => .attempt hinner.log houtcome hcursor hlm
  | fork body rest ihBody ih =>
      obtain ⟨hbody, hrest⟩ := List.forall_mem_append.mp hp
      have hinner := ihBody hbody .lenient hcd
      apply proceed hinner.ending hcd fun _ => ih hrest mode hcd
      exact fun l m hlm => .fork hinner.log hinner.ending hcd hlm

end Simulates

end DocCursor
