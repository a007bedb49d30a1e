-- Values on their way from one place to the next. A value that has come to the
-- first place enters the lane, and leaves it when it comes to the next place. As
-- long as no value passes another one that differs from it, the first place shows
-- what the last value in the lane says, and with an empty lane both places agree.
import Mathlib.Data.List.Nodup
import Mathlib.Logic.Function.Basic

namespace edge_cdn_store.lanes

/-- The values between two places with those that they belong to, the oldest first. -/
abbrev Lane (ι V : Type) := List (ι × V)

namespace Lane

variable {ι V : Type} [DecidableEq ι] {q : Lane ι V} {i : ι} {v b : V} {f g : ι → Option V}

/-- What the first place shows when the next one shows `b`. -/
def top (q : Lane ι V) (b : V) : V := (q.getLast?.map Prod.snd).getD b

def enter (q : Lane ι V) (i : ι) (v : V) : Lane ι V := q ++ [(i, v)]

def leave (q : Lane ι V) (i : ι) : Lane ι V := q.eraseP fun x => x.1 = i

/-- No value other than `v` stands before that of `i`. -/
def Clear (q : Lane ι V) (i : ι) (v : V) : Prop := ∀ x ∈ q.takeWhile (fun x => x.1 ≠ i), x.2 = v

instance [DecidableEq V] (q : Lane ι V) (i : ι) (v : V) : Decidable (q.Clear i v) :=
  inferInstanceAs (Decidable (∀ _ ∈ _, _))

/-- The lane holds the values that `f` says, each once. -/
structure Tracks (q : Lane ι V) (f : ι → Option V) : Prop where
  nodup : (q.map Prod.fst).Nodup
  mem : ∀ i v, (i, v) ∈ q ↔ f i = some v

omit [DecidableEq ι] in
@[simp] theorem top_nil (b : V) : top ([] : Lane ι V) b = b := rfl

omit [DecidableEq ι] in
@[simp] theorem top_enter (q : Lane ι V) (i : ι) (v b : V) : (q.enter i v).top b = v := by
  simp [top, enter]

/-- Where a value stands, and what is left of the lane without it. -/
theorem Tracks.split (h : q.Tracks f) (hi : f i = some v) :
    ∃ l1 l2, q = l1 ++ (i, v) :: l2 ∧ q.leave i = l1 ++ l2 ∧
      q.takeWhile (fun x => x.1 ≠ i) = l1 := by
  have hmem : (i, v) ∈ q := (h.mem i v).mpr hi
  obtain ⟨⟨j, u⟩, l1, l2, hno, hj, hq, hleave⟩ :=
    List.exists_of_eraseP (p := fun x => x.1 = i) hmem (by simp)
  obtain rfl : j = i := by simpa using hj
  have hu : f j = some u := (h.mem j u).mp (by rw [hq]; simp)
  obtain rfl : u = v := Option.some.inj (hu.symm.trans hi)
  refine ⟨l1, l2, hq, hleave, ?_⟩
  rw [hq, List.takeWhile_append_of_pos fun x hx => by simpa using hno x hx]
  simp

/-- A value that has passed nothing else leaves the first place as it is. -/
theorem Tracks.top_leave (h : q.Tracks f) (hi : f i = some v) (hc : q.Clear i v) (b : V) :
    (q.leave i).top v = q.top b := by
  obtain ⟨l1, l2, hq, hleave, htake⟩ := h.split hi
  unfold Clear at hc
  rw [htake] at hc
  rw [hleave, hq]
  unfold top
  rcases List.eq_nil_or_concat l2 with rfl | ⟨l, x, rfl⟩
  · -- it was the last one, and all before it say the same
    rcases List.eq_nil_or_concat l1 with rfl | ⟨l, x, rfl⟩
    · simp
    · have hx := hc x (by simp)
      simp [hx]
  · simp [List.getLast?_append, List.getLast?_cons]

/-- A value that is not shown was not the last one. -/
theorem Tracks.top_leave_of_ne (h : q.Tracks f) (hi : f i = some v) (hv : q.top b ≠ v) :
    (q.leave i).top b = q.top b := by
  obtain ⟨l1, l2, hq, hleave, _⟩ := h.split hi
  rw [hleave, hq]
  rw [hq] at hv
  unfold top at hv ⊢
  rcases List.eq_nil_or_concat l2 with rfl | ⟨l, x, rfl⟩
  · simp at hv
  · simp [List.getLast?_append, List.getLast?_cons]

omit [DecidableEq ι] in
theorem Tracks.nil : Tracks ([] : Lane ι V) fun _ => none := ⟨List.nodup_nil, by simp⟩

omit [DecidableEq ι] in
theorem Tracks.eq_nil (h : q.Tracks f) (hf : ∀ i, f i = none) : q = [] := by
  refine List.eq_nil_iff_forall_not_mem.mpr fun x hx => ?_
  have := (h.mem x.1 x.2).mp hx
  rw [hf] at this
  cases this

theorem Tracks.enter (h : q.Tracks f) (hi : f i = none) (v : V) :
    (q.enter i v).Tracks (Function.update f i (some v)) := by
  have hnot : ∀ u, (i, u) ∉ q := fun u hu => by
    have := (h.mem i u).mp hu
    rw [hi] at this
    cases this
  refine ⟨?_, fun j u => ?_⟩
  · unfold Lane.enter
    rw [List.map_append, List.nodup_append]
    refine ⟨h.nodup, by simp, fun x hx y hy => ?_⟩
    obtain ⟨⟨k, u⟩, hk, rfl⟩ := List.mem_map.mp hx
    rintro rfl
    obtain rfl : k = i := by simpa using hy
    exact hnot u hk
  · unfold Lane.enter
    by_cases hj : j = i
    · subst hj
      simp [hnot, eq_comm]
    · simp [hj, h.mem]

theorem Tracks.leave (h : q.Tracks f) (hi : f i = some v) :
    (q.leave i).Tracks (Function.update f i none) := by
  obtain ⟨l1, l2, hq, hleave, _⟩ := h.split hi
  have hnodup := h.nodup
  rw [hq, List.map_append, List.map_cons, List.nodup_middle, List.nodup_cons] at hnodup
  refine ⟨by rw [hleave, List.map_append]; exact hnodup.2, fun j u => ?_⟩
  by_cases hj : j = i
  · subst hj
    have hnot : (j, u) ∉ q.leave j := fun hu => by
      rw [hleave] at hu
      exact hnodup.1 (by rw [← List.map_append]; exact List.mem_map.mpr ⟨_, hu, rfl⟩)
    simp [hnot]
  · rw [Function.update_of_ne hj, ← h.mem, hleave, hq]
    simp [hj]

/-- What the lane becomes when the value of `i` goes from `old` to `new`. -/
def pass (q : Lane ι V) (i : ι) : Option V → Option V → Lane ι V
  | none, some v => q.enter i v
  | some _, none => q.leave i
  | _, _ => q

@[simp] theorem pass_self (q : Lane ι V) (i : ι) (o : Option V) :
    q.pass i o o = q := by
  cases o <;> rfl

end Lane

/-! ## Three places in a row -/

/-- Three places show `a`, `b` and `c`. Each value comes to them in turn, and two lanes hold
the values that are between two places. -/
structure Row {ι V : Type} (f g : ι → Option V) (q r : Lane ι V) (a b c : V) : Prop where
  first_lane : q.Tracks f
  second_lane : r.Tracks g
  first : a = q.top b
  second : b = r.top c

namespace Row

variable {ι V : Type} {f g : ι → Option V} {q r : Lane ι V} {a b c v : V} {i : ι}

/-- Three places agree, and nothing is on its way. -/
theorem rest (a : V) : Row (fun _ : ι => none) (fun _ => none) [] [] a a a :=
  ⟨.nil, .nil, rfl, rfl⟩

theorem settled (h : Row f g q r a b c) (hf : ∀ i, f i = none) (hg : ∀ i, g i = none) :
    a = b ∧ b = c := by
  have hfirst := h.first
  have hsecond := h.second
  rw [h.first_lane.eq_nil hf] at hfirst
  rw [h.second_lane.eq_nil hg] at hsecond
  exact ⟨hfirst, hsecond⟩

variable [DecidableEq ι]

theorem reach_first (h : Row f g q r a b c) (hi : f i = none) (v : V) :
    Row (Function.update f i (some v)) g (q.enter i v) r v b c :=
  ⟨h.first_lane.enter hi v, h.second_lane, (Lane.top_enter _ _ _ _).symm, h.second⟩

theorem reach_second (h : Row f g q r a b c) (hi : f i = some v) (hg : g i = none)
    (hc : q.Clear i v) :
    Row (Function.update f i none) (Function.update g i (some v)) (q.leave i) (r.enter i v)
      a v c := by
  refine ⟨h.first_lane.leave hi, h.second_lane.enter hg v, ?_, (Lane.top_enter _ _ _ _).symm⟩
  rw [h.first_lane.top_leave hi hc b]
  exact h.first

theorem reach_third (h : Row f g q r a b c) (hi : g i = some v) (hc : r.Clear i v) :
    Row f (Function.update g i none) q (r.leave i) a b v := by
  refine ⟨h.first_lane, h.second_lane.leave hi, h.first, ?_⟩
  rw [h.second_lane.top_leave hi hc c]
  exact h.second

/-- A value that the first place no longer shows can be given up behind it. -/
theorem give_up_first (h : Row f g q r a b c) (hi : f i = some v) (hne : a ≠ v) :
    Row (Function.update f i none) g (q.leave i) r a b c := by
  refine ⟨h.first_lane.leave hi, h.second_lane, ?_, h.second⟩
  rw [h.first_lane.top_leave_of_ne hi (h.first ▸ hne)]
  exact h.first

theorem give_up_second (h : Row f g q r a b c) (hi : g i = some v) (hne : b ≠ v) :
    Row f (Function.update g i none) q (r.leave i) a b c := by
  refine ⟨h.first_lane, h.second_lane.leave hi, h.first, ?_⟩
  rw [h.second_lane.top_leave_of_ne hi (h.second ▸ hne)]
  exact h.second

end Row

end edge_cdn_store.lanes
