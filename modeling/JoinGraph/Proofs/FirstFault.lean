import Mathlib.Data.List.Induction

/-!
# First Faults

Several loops go through a list, judge each item by the items before it, and stop at the first one
that is wrong. `FirstFault` says which error such a loop owes to a list, without saying how the loop
keeps track of what it has seen; `ReportsFirst` lists what one step of a loop has to do, and a loop
that does it stops with the first fault (`ReportsFirst.eq_error_iff`) and finishes exactly on lists
that have none (`ReportsFirst.exists_eq_ok_iff`).

## Main definitions

* `Faultless` — no item of a list is wrong.
* `FirstFault` — the first item that is wrong, with its fault.
* `ReportsFirst` — a loop whose state stands for the items it has passed.
-/

namespace JoinGraph

variable {α ε σ β : Type}

/-- No item of the list is wrong, where `fault before x e` says that `e` is wrong with `x` after the
items `before`. -/
def Faultless (fault : List α → α → ε → Prop) (xs : List α) : Prop :=
  ∀ before x after, xs = before ++ x :: after → ∀ e, ¬fault before x e

/-- `e` is wrong with an item of the list, and no item before it is wrong. -/
def FirstFault (fault : List α → α → ε → Prop) (xs : List α) (e : ε) : Prop :=
  ∃ before x after, xs = before ++ x :: after ∧ Faultless fault before ∧ fault before x e

section Lists

variable {fault : List α → α → ε → Prop} {xs ys : List α} {x : α} {e : ε}

theorem faultless_nil : Faultless fault [] := by
  intro before x after h
  simp at h

/-- What starts a faultless list is faultless. -/
theorem Faultless.of_append (h : Faultless fault (xs ++ ys)) : Faultless fault xs := by
  intro before x after hxs
  refine h before x (after ++ ys) ?_
  simp [hxs]

theorem faultless_concat_iff :
    Faultless fault (xs ++ [x]) ↔ Faultless fault xs ∧ ∀ e, ¬fault xs x e := by
  refine ⟨fun h => ⟨h.of_append, h xs x [] rfl⟩, fun ⟨hxs, hx⟩ before y after heq => ?_⟩
  -- The item is the last one, or it is one of those before.
  rcases List.eq_nil_or_concat after with rfl | ⟨init, z, rfl⟩
  · obtain ⟨rfl, hy⟩ := List.append_inj' heq rfl
    obtain rfl : x = y := by simpa using hy
    exact hx
  · refine hxs before y init ?_
    have hinit : xs ++ [x] = (before ++ y :: init) ++ [z] := by simpa using heq
    exact (List.append_inj' hinit rfl).1

/-- The second part of a faultless list is faultless after the first part. -/
theorem faultless_append_iff :
    Faultless fault (xs ++ ys) ↔
      Faultless fault xs ∧ Faultless (fun before => fault (xs ++ before)) ys := by
  induction ys using List.reverseRecOn with
  | nil => simp [faultless_nil]
  | append_singleton ys y ih =>
    rw [← List.append_assoc, faultless_concat_iff, ih, faultless_concat_iff, and_assoc]

/-- A fault stays the first one when the list goes on. -/
theorem FirstFault.append (h : FirstFault fault xs e) : FirstFault fault (xs ++ ys) e := by
  obtain ⟨before, x, after, rfl, hbefore, hx⟩ := h
  exact ⟨before, x, after ++ ys, by simp, hbefore, hx⟩

/-- A list has no fault, or it has a first one. -/
theorem faultless_or_exists_firstFault (fault : List α → α → ε → Prop) (xs : List α) :
    Faultless fault xs ∨ ∃ e, FirstFault fault xs e := by
  induction xs using List.reverseRecOn with
  | nil => exact .inl faultless_nil
  | append_singleton xs x ih =>
    -- A fault before the last item stays the first one; without one the last item decides.
    rcases ih with hxs | ⟨e, he⟩
    · by_cases hx : ∃ e, fault xs x e
      · obtain ⟨e, he⟩ := hx
        exact .inr ⟨e, xs, x, [], rfl, hxs, he⟩
      · exact .inl (faultless_concat_iff.2 ⟨hxs, not_exists.1 hx⟩)
    · exact .inr ⟨e, he.append⟩

/-- A faultless list has no first fault. -/
theorem Faultless.not_firstFault (h : Faultless fault xs) : ¬FirstFault fault xs e := by
  rintro ⟨before, x, after, rfl, -, hx⟩
  exact h before x after rfl e hx

/-- When the first item is wrong, the first fault is one of its faults. -/
theorem FirstFault.of_head {e' : ε} (h : FirstFault fault (x :: xs) e) (hx : fault [] x e') :
    fault [] x e := by
  obtain ⟨before, y, after, heq, hbefore, hy⟩ := h
  cases before with
  | nil =>
    obtain ⟨rfl, -⟩ := List.cons.inj heq
    exact hy
  | cons z before =>
    obtain ⟨rfl, -⟩ := List.cons.inj heq
    exact absurd hx (hbefore [] x before rfl e')

theorem faultless_of_not_firstFault (h : ∀ e, ¬FirstFault fault xs e) : Faultless fault xs :=
  (faultless_or_exists_firstFault fault xs).resolve_right fun ⟨e, he⟩ => h e he

/-- Only what is wrong with the items where they stand in the list matters. -/
theorem faultless_congr {fault' : List α → α → ε → Prop}
    (h : ∀ before x after, xs = before ++ x :: after → ∀ e, fault before x e ↔ fault' before x e) :
    Faultless fault xs ↔ Faultless fault' xs :=
  ⟨fun hxs before x after heq e he => hxs before x after heq e ((h before x after heq e).2 he),
    fun hxs before x after heq e he => hxs before x after heq e ((h before x after heq e).1 he)⟩

theorem firstFault_congr {fault' : List α → α → ε → Prop}
    (h : ∀ before x after, xs = before ++ x :: after → ∀ e, fault before x e ↔ fault' before x e) :
    FirstFault fault xs e ↔ FirstFault fault' xs e := by
  refine exists_congr fun before => exists_congr fun x => exists_congr fun after =>
    and_congr_right fun heq => ?_
  -- An item before the first fault stands where it stands in the whole list.
  have hbefore : Faultless fault before ↔ Faultless fault' before :=
    faultless_congr fun init y rest hinit => h init y (rest ++ x :: after) (by simp [heq, hinit])
  rw [hbefore, h before x after heq e]

end Lists

/-- A loop reports the first fault. In each round its state stands for the items passed so far: an
item that is wrong after them ends the loop with its fault, and any other item is passed. -/
structure ReportsFirst (fault : List α → α → ε → Prop) (stands : List α → σ → Prop)
    (run : σ → List α → Except ε β) (finish : σ → β) : Prop where
  /-- At the end of the list the loop returns what it makes of its state. -/
  finishes : ∀ s, run s [] = .ok (finish s)
  /-- The loop stops at an item that is wrong. -/
  stops : ∀ {before s x e}, stands before s → fault before x e →
    ∀ rest, run s (x :: rest) = .error e
  /-- The loop goes on after an item that is not wrong. -/
  passes : ∀ {before s x}, stands before s → (∀ e, ¬fault before x e) →
    ∃ s', stands (before ++ [x]) s' ∧ ∀ rest, run s (x :: rest) = run s' rest

namespace ReportsFirst

variable {fault : List α → α → ε → Prop} {stands : List α → σ → Prop}
  {run : σ → List α → Except ε β} {finish : σ → β} {s : σ} {xs : List α} {e : ε} {y : β}

/-- A faultless stretch is passed, whatever follows it. -/
theorem passes_faultless (h : ReportsFirst fault stands run finish) (hs : stands [] s)
    (hxs : Faultless fault xs) :
    ∃ s', stands xs s' ∧ ∀ rest, run s (xs ++ rest) = run s' rest := by
  -- Items join the stretch at its end, where the state stands for all before them.
  induction xs using List.reverseRecOn with
  | nil => exact ⟨s, hs, fun rest => rfl⟩
  | append_singleton xs x ih =>
    obtain ⟨hxs, hx⟩ := faultless_concat_iff.1 hxs
    obtain ⟨s₁, hs₁, hrun₁⟩ := ih hxs
    obtain ⟨s₂, hs₂, hrun₂⟩ := h.passes hs₁ hx
    refine ⟨s₂, hs₂, fun rest => ?_⟩
    rw [List.append_assoc, hrun₁]
    exact hrun₂ rest

/-- On a faultless list the loop finishes, in a state that stands for the whole list. -/
theorem exists_stands (h : ReportsFirst fault stands run finish) (hs : stands [] s)
    (hxs : Faultless fault xs) : ∃ s', stands xs s' ∧ run s xs = .ok (finish s') := by
  obtain ⟨s', hs', hrun⟩ := h.passes_faultless hs hxs
  refine ⟨s', hs', ?_⟩
  rw [← h.finishes s', ← hrun [], List.append_nil]

/-- The loop stops with the first fault. -/
theorem eq_error_of_firstFault (h : ReportsFirst fault stands run finish) (hs : stands [] s)
    (hxs : FirstFault fault xs e) : run s xs = .error e := by
  obtain ⟨before, x, after, rfl, hbefore, hx⟩ := hxs
  obtain ⟨s', hs', hrun⟩ := h.passes_faultless hs hbefore
  rw [hrun]
  exact h.stops hs' hx after

/-- A loop that finishes has gone through a faultless list and stands for it. -/
theorem of_eq_ok (h : ReportsFirst fault stands run finish) (hs : stands [] s)
    (hrun : run s xs = .ok y) : Faultless fault xs ∧ ∃ s', stands xs s' ∧ y = finish s' := by
  rcases faultless_or_exists_firstFault fault xs with hxs | ⟨e, he⟩
  · obtain ⟨s', hs', hfinish⟩ := h.exists_stands hs hxs
    exact ⟨hxs, s', hs', Except.ok.inj (hrun.symm.trans hfinish)⟩
  · rw [h.eq_error_of_firstFault hs he] at hrun
    cases hrun

/-- The error of a loop is the first fault. -/
theorem eq_error_iff (h : ReportsFirst fault stands run finish) (hs : stands [] s) :
    run s xs = .error e ↔ FirstFault fault xs e := by
  refine ⟨fun hrun => ?_, h.eq_error_of_firstFault hs⟩
  -- Without a fault the loop would have finished, and with one it reports that one.
  rcases faultless_or_exists_firstFault fault xs with hxs | ⟨e', he'⟩
  · obtain ⟨s', -, hfinish⟩ := h.exists_stands hs hxs
    rw [hfinish] at hrun
    cases hrun
  · rw [h.eq_error_of_firstFault hs he'] at hrun
    obtain rfl := Except.error.inj hrun
    exact he'

/-- A loop finishes on the faultless lists and on no others. -/
theorem exists_eq_ok_iff (h : ReportsFirst fault stands run finish) (hs : stands [] s) :
    (∃ y, run s xs = .ok y) ↔ Faultless fault xs := by
  refine ⟨fun ⟨y, hrun⟩ => (h.of_eq_ok hs hrun).1, fun hxs => ?_⟩
  obtain ⟨s', -, hrun⟩ := h.exists_stands hs hxs
  exact ⟨finish s', hrun⟩

end ReportsFirst

/-- A fold reports the first step that fails. -/
theorem reportsFirst_foldlM (step : σ → α → Except ε σ) (s : σ) :
    ReportsFirst (fun before x error => ∃ t, before.foldlM step s = .ok t ∧ step t x = .error error)
      (fun before t => before.foldlM step s = .ok t) (fun t xs => xs.foldlM step t) id where
  finishes t := rfl
  stops := by
    rintro before t x error ht ⟨t', ht', hx⟩ rest
    obtain rfl := Except.ok.inj (ht.symm.trans ht')
    rw [List.foldlM_cons, hx]
    rfl
  passes := by
    intro before t x ht hx
    cases hstep : step t x with
    | error error => exact absurd ⟨t, ht, hstep⟩ (hx error)
    | ok t' =>
      refine ⟨t', ?_, fun rest => ?_⟩
      · rw [List.foldlM_append, ht]
        change step t x >>= _ = _
        rw [hstep]
        rfl
      · rw [List.foldlM_cons, hstep]
        rfl

end JoinGraph
