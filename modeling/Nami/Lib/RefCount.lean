import Mathlib.Data.List.Count
import Mathlib.Data.List.Perm.Basic
import Mathlib.Data.List.Nodup

/-!
# Reference counts

Objects with addresses, each of which may refer to one other object, and counts of the references to
each. References that are not stored in an object, because an operation is under way, are in hand.
-/

namespace Nami

open List

/-- The address of an object, the address it refers to, and its count. -/
structure RefCount (α : Type*) where
  id : α → Nat
  target : α → Option Nat
  count : α → Nat

namespace RefCount

variable {α : Type*} (C : RefCount α) {hand : List Nat} {l l' : List α} {x y : α} {i : Nat}

/-- How many objects refer to an address. -/
def pointing (l : List α) (i : Nat) : Nat := l.countP fun x => C.target x = some i

/-- The references to an address in objects and in hand. -/
def refs (hand : List Nat) (l : List α) (i : Nat) : Nat := C.pointing l i + hand.count i

/-- No count is too small, and when the counts are exact none is too large. Addresses are below a
bound, from which new ones are taken. -/
structure Sound (exact : Prop) (bound : Nat) (hand : List Nat) (l : List α) : Prop where
  nodup : (l.map C.id).Nodup
  id_lt : ∀ x ∈ l, C.id x < bound
  target_lt : ∀ x ∈ l, ∀ i, C.target x = some i → i < bound
  hand_lt : ∀ i ∈ hand, i < bound
  le : ∀ x ∈ l, C.refs hand l (C.id x) ≤ C.count x
  eq : exact → ∀ x ∈ l, C.count x = C.refs hand l (C.id x)

variable {C} {exact : Prop} {bound bound' : Nat}

theorem pointing_cons : C.pointing (x :: l) i = C.pointing l i + if C.target x = some i then 1 else 0 := by
  unfold pointing
  rw [countP_cons]
  simp

theorem pointing_perm (h : l.Perm l') : C.pointing l i = C.pointing l' i := h.countP_eq _

namespace Sound

theorem nil (exact : Prop) (bound : Nat) : C.Sound exact bound [] [] where
  nodup := nodup_nil
  id_lt x hx := by cases hx
  target_lt x hx := by cases hx
  hand_lt i hi := by cases hi
  le x hx := by cases hx
  eq _ x hx := by cases hx

theorem perm (h : C.Sound exact bound hand l) (hp : l.Perm l') : C.Sound exact bound hand l' where
  nodup := (hp.map C.id).nodup_iff.1 h.nodup
  id_lt x hx := h.id_lt x (hp.mem_iff.2 hx)
  target_lt x hx := h.target_lt x (hp.mem_iff.2 hx)
  hand_lt := h.hand_lt
  le x hx := by
    unfold refs
    rw [← pointing_perm hp]
    exact h.le x (hp.mem_iff.2 hx)
  eq hexact x hx := by
    unfold refs
    rw [← pointing_perm hp]
    exact h.eq hexact x (hp.mem_iff.2 hx)

theorem mono (h : C.Sound exact bound hand l) (hb : bound ≤ bound') : C.Sound exact bound' hand l where
  nodup := h.nodup
  id_lt x hx := Nat.lt_of_lt_of_le (h.id_lt x hx) hb
  target_lt x hx i hi := Nat.lt_of_lt_of_le (h.target_lt x hx i hi) hb
  hand_lt i hi := Nat.lt_of_lt_of_le (h.hand_lt i hi) hb
  le := h.le
  eq := h.eq

theorem count_pos (h : C.Sound exact bound (C.id x :: hand) l) (hx : x ∈ l) : 0 < C.count x := by
  have hle := h.le x hx
  unfold refs at hle
  rw [count_cons_self] at hle
  omega

theorem count_pos_of_target (h : C.Sound exact bound hand l) (hx : x ∈ l) (hy : y ∈ l)
    (ht : C.target y = some (C.id x)) : 0 < C.count x := by
  have hle := h.le x hx
  have hpos : 0 < C.pointing l (C.id x) := countP_pos_iff.2 ⟨y, hy, by simpa using ht⟩
  unfold refs at hle
  omega

theorem drop (h : C.Sound exact bound (i :: hand) l) (hi : ∀ x ∈ l, C.id x ≠ i) : C.Sound exact bound hand l := by
  have hrefs : ∀ x ∈ l, C.refs (i :: hand) l (C.id x) = C.refs hand l (C.id x) := by
    intro x hx
    unfold refs
    rw [count_cons_of_ne (hi x hx).symm]
  refine ⟨h.nodup, h.id_lt, h.target_lt, fun j hj => h.hand_lt j (mem_cons_of_mem i hj), ?_, ?_⟩
  · intro x hx
    rw [← hrefs x hx]
    exact h.le x hx
  · intro hexact x hx
    rw [← hrefs x hx]
    exact h.eq hexact x hx

/-! ## One object -/

theorem cons (h : C.Sound exact bound ((C.target x).toList ++ hand) l) (hid : C.id x = bound)
    (hcount : C.count x = 0) (hhand : ∀ i ∈ hand, i < bound) : C.Sound exact (bound + 1) hand (x :: l) := by
  have hnew : ∀ y ∈ l, C.id y ≠ bound := fun y hy => Nat.ne_of_lt (h.id_lt y hy)
  have htarget : ∀ i, C.target x = some i → i < bound := by
    intro i hi
    apply h.hand_lt
    rw [hi]
    exact mem_cons_self
  have hrefs : ∀ i, C.refs hand (x :: l) i = C.refs ((C.target x).toList ++ hand) l i := by
    intro i
    unfold refs
    rw [pointing_cons, count_append]
    cases hx : C.target x with
    | none => simp
    | some j =>
      by_cases hj : j = i
      · simp [hj]
        omega
      · simp [hj]
  have hzero : C.refs hand (x :: l) bound = 0 := by
    rw [hrefs]
    unfold refs pointing
    rw [Nat.add_eq_zero_iff]
    constructor
    · rw [countP_eq_zero]
      intro y hy hty
      exact Nat.lt_irrefl _ (h.target_lt y hy bound (of_decide_eq_true hty))
    · rw [count_eq_zero]
      exact fun hmem => Nat.lt_irrefl _ (h.hand_lt bound hmem)
  refine ⟨?_, ?_, ?_, ?_, ?_, ?_⟩
  · rw [map_cons, nodup_cons]
    refine ⟨?_, h.nodup⟩
    intro hmem
    obtain ⟨y, hy, heq⟩ := mem_map.1 hmem
    exact hnew y hy (heq.trans hid)
  · intro y hy
    rcases mem_cons.1 hy with rfl | hy
    · omega
    · have := h.id_lt y hy
      omega
  · intro y hy i hi
    rcases mem_cons.1 hy with rfl | hy
    · have := htarget i hi
      omega
    · have := h.target_lt y hy i hi
      omega
  · intro i hi
    have := hhand i hi
    omega
  · intro y hy
    rcases mem_cons.1 hy with rfl | hy
    · rw [hid, hzero]
      exact Nat.zero_le _
    · rw [hrefs]
      exact h.le y hy
  · intro hexact y hy
    rcases mem_cons.1 hy with rfl | hy
    · rw [hid, hzero, hcount]
    · rw [hrefs]
      exact h.eq hexact y hy

theorem tail (h : C.Sound exact bound hand (x :: l)) (hx : exact → C.target x = none) : C.Sound exact bound hand l := by
  have hnodup := h.nodup
  rw [map_cons, nodup_cons] at hnodup
  refine ⟨hnodup.2, fun y hy => h.id_lt y (mem_cons_of_mem x hy),
    fun y hy => h.target_lt y (mem_cons_of_mem x hy), h.hand_lt, ?_, ?_⟩
  · intro y hy
    have hle := h.le y (mem_cons_of_mem x hy)
    unfold refs at hle ⊢
    rw [pointing_cons] at hle
    omega
  · intro hexact y hy
    have heq := h.eq hexact y (mem_cons_of_mem x hy)
    unfold refs at heq ⊢
    rw [pointing_cons, hx hexact] at heq
    simpa using heq

theorem head {hand' : List Nat} (h : C.Sound exact bound hand (x :: l)) (hid : C.id y = C.id x)
    (htarget : ∀ i, C.target y = some i → i < bound) (hhand : ∀ i ∈ hand', i < bound)
    (hbalance : ∀ i, (if C.target y = some i then 1 else 0) + hand'.count i + (if C.id x = i then C.count x else 0) =
      (if C.target x = some i then 1 else 0) + hand.count i + (if C.id x = i then C.count y else 0)) :
    C.Sound exact bound hand' (y :: l) := by
  have hnodup := h.nodup
  rw [map_cons, nodup_cons] at hnodup
  have hother : ∀ z ∈ l, C.refs hand' (y :: l) (C.id z) = C.refs hand (x :: l) (C.id z) := by
    intro z hz
    have hne : C.id x ≠ C.id z := fun heq => hnodup.1 (heq ▸ mem_map_of_mem hz)
    have := hbalance (C.id z)
    rw [if_neg hne, if_neg hne] at this
    unfold refs
    rw [pointing_cons, pointing_cons]
    omega
  have hself : C.refs hand' (y :: l) (C.id x) + C.count x = C.refs hand (x :: l) (C.id x) + C.count y := by
    have := hbalance (C.id x)
    rw [if_pos rfl, if_pos rfl] at this
    unfold refs
    rw [pointing_cons, pointing_cons]
    omega
  refine ⟨?_, ?_, ?_, hhand, ?_, ?_⟩
  · rw [map_cons, nodup_cons, hid]
    exact hnodup
  · intro z hz
    rcases mem_cons.1 hz with rfl | hz
    · rw [hid]
      exact h.id_lt x mem_cons_self
    · exact h.id_lt z (mem_cons_of_mem x hz)
  · intro z hz
    rcases mem_cons.1 hz with rfl | hz
    · exact htarget
    · exact h.target_lt z (mem_cons_of_mem x hz)
  · intro z hz
    rcases mem_cons.1 hz with rfl | hz
    · have := h.le x mem_cons_self
      rw [hid]
      omega
    · rw [hother z hz]
      exact h.le z (mem_cons_of_mem x hz)
  · intro hexact z hz
    rcases mem_cons.1 hz with rfl | hz
    · have := h.eq hexact x mem_cons_self
      rw [hid]
      omega
    · rw [hother z hz]
      exact h.eq hexact z (mem_cons_of_mem x hz)

/-! ## Objects by address -/

theorem exists_perm (hnodup : (l.map C.id).Nodup) (hx : x ∈ l) : ∃ rest, l.Perm (x :: rest) ∧
    (l.filter fun z => C.id z ≠ C.id x).Perm rest ∧
    ∀ y, C.id y = C.id x → (l.map fun z => if C.id z = C.id y then y else z).Perm (y :: rest) := by
  obtain ⟨a, b, rfl⟩ := append_of_mem hx
  rw [map_append, map_cons, nodup_middle, nodup_cons, ← map_append] at hnodup
  have hne : ∀ z ∈ a ++ b, C.id z ≠ C.id x := fun z hz heq => hnodup.1 (heq ▸ mem_map_of_mem hz)
  refine ⟨a ++ b, perm_middle, ?_, ?_⟩
  · rw [filter_append, filter_cons_of_neg (by simp), ← filter_append,
      filter_eq_self.2 fun z hz => by simpa using hne z hz]
  · intro y hid
    have hkeep : (a ++ b).map (fun z => if C.id z = C.id y then y else z) = a ++ b := by
      calc (a ++ b).map (fun z => if C.id z = C.id y then y else z)
        _ = (a ++ b).map fun z => z := map_congr_left fun z hz => if_neg (hid ▸ hne z hz)
        _ = a ++ b := map_id' _
    rw [map_append, map_cons, if_pos hid.symm]
    refine perm_middle.trans ?_
    rw [← map_append, hkeep]

theorem write {hand' : List Nat} (h : C.Sound exact bound hand l) (hx : x ∈ l) (hid : C.id y = C.id x)
    (htarget : ∀ i, C.target y = some i → i < bound) (hhand : ∀ i ∈ hand', i < bound)
    (hbalance : ∀ i, (if C.target y = some i then 1 else 0) + hand'.count i + (if C.id x = i then C.count x else 0) =
      (if C.target x = some i then 1 else 0) + hand.count i + (if C.id x = i then C.count y else 0)) :
    C.Sound exact bound hand' (l.map fun z => if C.id z = C.id y then y else z) := by
  obtain ⟨rest, hl, -, hwrite⟩ := exists_perm h.nodup hx
  exact ((h.perm hl).head hid htarget hhand hbalance).perm (hwrite y hid).symm

theorem keep (h : C.Sound exact bound hand l) (hx : x ∈ l) (hid : C.id y = C.id x)
    (htarget : C.target y = C.target x) (hcount : C.count y = C.count x) :
    C.Sound exact bound hand (l.map fun z => if C.id z = C.id y then y else z) := by
  refine h.write hx hid (fun i hi => h.target_lt x hx i (htarget ▸ hi)) h.hand_lt ?_
  intro i
  rw [htarget, hcount]

theorem clear (h : C.Sound exact bound hand l) (hx : x ∈ l) (hid : C.id y = C.id x)
    (htarget : C.target y = none) (hcount : C.count y = C.count x) :
    C.Sound exact bound ((C.target x).toList ++ hand) (l.map fun z => if C.id z = C.id y then y else z) := by
  refine h.write hx hid (fun i hi => ?_) (fun i hi => ?_) fun i => ?_
  · rw [htarget] at hi
    cases hi
  · rcases mem_append.1 hi with hi | hi
    · exact h.target_lt x hx i (Option.mem_toList.1 hi)
    · exact h.hand_lt i hi
  · rw [htarget, hcount, count_append]
    cases hx : C.target x with
    | none => simp
    | some j =>
      by_cases hj : j = i
      · simp [hj]
      · simp [hj]

theorem incr (h : C.Sound exact bound hand l) (hx : x ∈ l) (hid : C.id y = C.id x)
    (htarget : C.target y = C.target x) (hcount : C.count y = C.count x + 1) :
    C.Sound exact bound (C.id x :: hand) (l.map fun z => if C.id z = C.id y then y else z) := by
  refine h.write hx hid (fun i hi => h.target_lt x hx i (htarget ▸ hi)) (fun i hi => ?_) fun i => ?_
  · rcases mem_cons.1 hi with rfl | hi
    · exact h.id_lt x hx
    · exact h.hand_lt i hi
  · rw [htarget, hcount, count_cons]
    by_cases hi : C.id x = i
    · simp [hi]
      omega
    · simp [hi]

theorem decr (h : C.Sound exact bound (C.id x :: hand) l) (hx : x ∈ l) (hid : C.id y = C.id x)
    (htarget : C.target y = C.target x) (hcount : C.count y = C.count x - 1) :
    C.Sound exact bound hand (l.map fun z => if C.id z = C.id y then y else z) := by
  have hpos := h.count_pos hx
  refine h.write hx hid (fun i hi => h.target_lt x hx i (htarget ▸ hi))
    (fun i hi => h.hand_lt i (mem_cons_of_mem _ hi)) fun i => ?_
  rw [htarget, hcount, count_cons]
  by_cases hi : C.id x = i
  · simp [hi]
    omega
  · simp [hi]

theorem filter (h : C.Sound exact bound hand l) (hx : x ∈ l) (htarget : exact → C.target x = none) :
    C.Sound exact bound hand (l.filter fun z => C.id z ≠ C.id x) := by
  obtain ⟨rest, hl, hfilter, -⟩ := exists_perm h.nodup hx
  exact ((h.perm hl).tail htarget).perm hfilter.symm

end Sound

end RefCount

end Nami
