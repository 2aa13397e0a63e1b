import Mathlib.Data.List.Nodup
import Nami.Script.Timers

/-!
# The life of a script timer

A one-shot timer runs once and an interval is scheduled after each run; nothing is done with a timer that was
released, and no code runs in a thread that was closed. `Core` is what holds also in the middle of a firing.
-/

namespace Nami.Script

open List

namespace TimerEvent

/-- May an event come after another? Nothing follows the release of a record, and no call a closing. -/
def MayFollow (later earlier : TimerEvent) : Prop :=
  match earlier, later with
  | release addr, read addr' => addr ≠ addr'
  | release addr, call addr' => addr ≠ addr'
  | release addr, func addr' => addr ≠ addr'
  | release addr, release addr' => addr ≠ addr'
  | close, call _ => False
  | _, _ => True

/-- The record of an event. -/
def addr? : TimerEvent → Option Nat
  | set tm => some tm.addr
  | read addr => some addr
  | call addr => some addr
  | func addr => some addr
  | release addr => some addr
  | close => none

end TimerEvent

/-- Timers live as they should: what happens to their records is in order, one-shot timers run once, an interval
that ran is scheduled again, and the scheduler has live timers only, whose ids differ. -/
structure TimersKept (s : Timers) : Prop where
  order : s.trace.Pairwise TimerEvent.MayFollow
  oneShot : ∀ tm, .set tm ∈ s.trace → tm.repeating = false → s.trace.count (.call tm.addr) ≤ 1
  interval : ∀ tm ∈ s.timers, tm.repeating = true → .call tm.addr ∈ s.trace → s.running ≠ some tm →
    (tm.addr, tm.ms) ∈ s.scheduled
  ids : (s.timers.map Timer.id).Nodup
  scheduled : ∀ e ∈ s.scheduled, ∃ tm ∈ s.timers, tm.addr = e.1

/-- No function of a timer is released while it runs, an id is not that of a live timer or of the one that runs,
and the scheduler has memory for the intervals. -/
def TimerOp.Safe (op : TimerOp) (s : Timers) : Prop :=
  match op with
  | set _ _ run calloc code _ => s.closed = false → calloc = true → (run.isCode = true → code = true) →
    ∀ tm, tm ∈ s.timers ∨ s.running = some tm → tm.id ≠ Timers.bump s.nextTimer
  | clear id => ∀ tm, s.running = some tm → tm.run.isCode = false → s.timerFind id ≠ some tm
  | callReturns memory => ∀ tm, s.running = some tm → tm ∈ s.timers → tm.repeating = true → memory = true
  | closethread => ∀ tm, s.running = some tm → tm.run.isCode = false → tm ∉ s.timers
  | _ => True

namespace Timers

variable {s : Timers} {tm tm' again : Timer} {addr : Nat} {id ms : Int} {memory cancel : Bool} {e : Nat × Int}
  {event : TimerEvent}

/-! ## The list of timers and the scheduler -/

theorem mem_eraseP {timers : List Timer} (h : (timers.map Timer.addr).Nodup) :
    tm' ∈ timers.eraseP (fun scan => decide (scan.addr = tm.addr)) ↔ tm' ∈ timers ∧ tm'.addr ≠ tm.addr := by
  induction timers with
  | nil => simp
  | cons scan rest ih =>
    rw [map_cons, nodup_cons] at h
    by_cases hscan : scan.addr = tm.addr
    · rw [eraseP_cons_of_pos (by simpa using hscan)]
      have hrest : tm' ∈ rest → tm'.addr ≠ tm.addr := by
        intro hmem heq
        apply h.1
        rw [hscan, ← heq]
        exact mem_map_of_mem hmem
      constructor
      · exact fun hmem => ⟨mem_cons_of_mem _ hmem, hrest hmem⟩
      · rintro ⟨hmem, hne⟩
        obtain rfl | hmem := mem_cons.mp hmem
        · exact absurd hscan hne
        · exact hmem
    · rw [eraseP_cons_of_neg (by simpa using hscan), mem_cons, mem_cons, ih h.2]
      constructor
      · rintro (rfl | ⟨hmem, hne⟩)
        · exact ⟨.inl rfl, hscan⟩
        · exact ⟨.inr hmem, hne⟩
      · rintro ⟨rfl | hmem, hne⟩
        · exact .inl rfl
        · exact .inr ⟨hmem, hne⟩

theorem mem_unschedule : e ∈ (s.unschedule addr).scheduled ↔ e ∈ s.scheduled ∧ e.1 ≠ addr := by
  unfold unschedule
  rw [mem_filter, decide_eq_true_iff]

theorem mem_schedule : e ∈ (s.schedule ms addr memory).scheduled ↔
    e ∈ s.scheduled ∧ e.1 ≠ addr ∨ e = (addr, ms) ∧ (memory = true ∨ ∃ e' ∈ s.scheduled, e'.1 = addr) := by
  unfold schedule
  split
  · next hany =>
    have hthere : ∃ e' ∈ s.scheduled, e'.1 = addr := by simpa using hany
    rw [mem_map]
    constructor
    · rintro ⟨e', he', rfl⟩
      split
      · exact .inr ⟨rfl, .inr hthere⟩
      · next hne => exact .inl ⟨he', hne⟩
    · rintro (⟨he, hne⟩ | ⟨rfl, -⟩)
      · exact ⟨e, he, if_neg hne⟩
      · obtain ⟨e', he', heq⟩ := hthere
        exact ⟨e', he', if_pos heq⟩
  · next hany =>
    have hnot : ∀ e' ∈ s.scheduled, e'.1 ≠ addr := by
      intro e' he' heq
      exact hany (any_eq_true.mpr ⟨e', he', decide_eq_true heq⟩)
    split
    · next hmemory =>
      rw [mem_append, mem_singleton]
      constructor
      · rintro (he | rfl)
        · exact .inl ⟨he, hnot e he⟩
        · exact .inr ⟨rfl, .inl hmemory⟩
      · rintro (⟨he, -⟩ | ⟨rfl, -⟩)
        · exact .inl he
        · exact .inr rfl
    · next hmemory =>
      constructor
      · exact fun he => .inl ⟨he, hnot e he⟩
      · rintro (⟨he, -⟩ | ⟨-, hmem | ⟨e', he', heq⟩⟩)
        · exact he
        · exact absurd hmem hmemory
        · exact absurd heq (hnot e' he')

theorem schedule_eq : s.schedule ms addr memory = { s with scheduled := (s.schedule ms addr memory).scheduled } := by
  unfold schedule
  split
  · rfl
  · split <;> rfl

theorem timerUnlink_eq : s.timerUnlink tm cancel = { s with
    scheduled := if cancel then (s.unschedule tm.addr).scheduled else s.scheduled
    timers := s.timers.eraseP fun scan => decide (scan.addr = tm.addr)
    trace := .release tm.addr :: s.trace } := by
  cases cancel <;> rfl

/-! ## What always holds -/

structure Core (s : Timers) : Prop where
  addrs : (s.timers.map Timer.addr).Nodup
  ids : (s.timers.map Timer.id).Nodup
  fresh : ∀ event ∈ s.trace, ∀ addr, event.addr? = some addr → addr < s.nextAddr
  made : ∀ tm ∈ s.timers, .set tm ∈ s.trace
  unique : ∀ tm tm', .set tm ∈ s.trace → .set tm' ∈ s.trace → tm.addr = tm'.addr → tm = tm'
  live : ∀ tm ∈ s.timers, .release tm.addr ∉ s.trace
  opened : s.closed = false → .close ∉ s.trace
  order : s.trace.Pairwise TimerEvent.MayFollow
  oneShot : ∀ tm, .set tm ∈ s.trace → tm.repeating = false → s.trace.count (.call tm.addr) ≤ 1
  scheduled : ∀ e ∈ s.scheduled, ∃ tm ∈ s.timers, tm.addr = e.1
  called : ∀ tm ∈ s.timers, tm.repeating = false → .call tm.addr ∈ s.trace → ∀ e ∈ s.scheduled, e.1 ≠ tm.addr

namespace Core

theorem eq_of_addr (h : s.Core) (htm : tm ∈ s.timers) (htm' : tm' ∈ s.timers) (heq : tm.addr = tm'.addr) : tm = tm' :=
  inj_on_of_nodup_map h.addrs htm htm' heq

theorem eq_of_id (h : s.Core) (htm : tm ∈ s.timers) (htm' : tm' ∈ s.timers) (heq : tm.id = tm'.id) : tm = tm' :=
  inj_on_of_nodup_map h.ids htm htm' heq

theorem timerFind (h : s.Core) (htm : tm ∈ s.timers) : s.timerFind tm.id = some tm := by
  unfold Timers.timerFind
  cases hfind : s.timers.find? fun scan => decide (scan.id = tm.id) with
  | none =>
    rw [List.find?_eq_none] at hfind
    exact absurd (decide_eq_true rfl) (hfind tm htm)
  | some scan =>
    have hid := List.find?_some hfind
    rw [decide_eq_true_iff] at hid
    rw [h.eq_of_id (mem_of_find?_eq_some hfind) htm hid]

theorem follow (h : s.Core) (htm : tm ∈ s.timers) {earlier : TimerEvent} (hmem : earlier ∈ s.trace) :
    (TimerEvent.read tm.addr).MayFollow earlier ∧ (TimerEvent.func tm.addr).MayFollow earlier ∧
      (TimerEvent.release tm.addr).MayFollow earlier ∧
      (s.closed = false → (TimerEvent.call tm.addr).MayFollow earlier) := by
  cases earlier with
  | release addr =>
    have hne : addr ≠ tm.addr := by
      rintro rfl
      exact h.live tm htm hmem
    exact ⟨hne, hne, hne, fun _ => hne⟩
  | close => exact ⟨trivial, trivial, trivial, fun hclosed => h.opened hclosed hmem⟩
  | _ => exact ⟨trivial, trivial, trivial, fun _ => trivial⟩

theorem addr_lt (h : s.Core) (htm : tm ∈ s.timers) : tm.addr < s.nextAddr :=
  h.fresh _ (h.made tm htm) _ rfl

theorem record (h : s.Core) (htm : tm ∈ s.timers) (hevent : event = .read tm.addr ∨ event = .func tm.addr) :
    Core { s with trace := event :: s.trace } := by
  have hold {event' : TimerEvent} (hmem : event' ∈ event :: s.trace) (hread : ∀ a, event' ≠ .read a)
      (hfunc : ∀ a, event' ≠ .func a) : event' ∈ s.trace := by
    obtain rfl | hmem := mem_cons.mp hmem
    · obtain rfl | rfl := hevent
      · exact absurd rfl (hread _)
      · exact absurd rfl (hfunc _)
    · exact hmem
  refine {
    addrs := h.addrs
    ids := h.ids
    fresh := fun event' hmem a ha => ?_
    made := fun tm htm => mem_cons_of_mem _ (h.made tm htm)
    unique := fun tm tm' hmem hmem' => h.unique tm tm' (hold hmem (by simp) (by simp)) (hold hmem' (by simp) (by simp))
    live := fun tm htm hmem => h.live tm htm (hold hmem (by simp) (by simp))
    opened := fun hclosed hmem => h.opened hclosed (hold hmem (by simp) (by simp))
    order := ?_
    oneShot := fun tm' hmem hrepeating => ?_
    scheduled := h.scheduled
    called := fun tm htm hrepeating hmem => h.called tm htm hrepeating (hold hmem (by simp) (by simp)) }
  · obtain rfl | hmem := mem_cons.mp hmem
    · have heq : tm.addr = a := by
        obtain rfl | rfl := hevent
        · exact Option.some.inj ha
        · exact Option.some.inj ha
      rw [← heq]
      exact h.addr_lt htm
    · exact h.fresh event' hmem a ha
  · rw [pairwise_cons]
    refine ⟨fun earlier hmem => ?_, h.order⟩
    obtain ⟨hread, hfunc, -⟩ := h.follow htm hmem
    obtain rfl | rfl := hevent
    · exact hread
    · exact hfunc
  · have hne : event ≠ .call tm'.addr := by
      obtain rfl | rfl := hevent <;> simp
    rw [count_cons_of_ne hne]
    exact h.oneShot tm' (hold hmem (by simp) (by simp)) hrepeating

theorem call (h : s.Core) (htm : tm ∈ s.timers) (hclosed : s.closed = false)
    (hfirst : tm.repeating = false → .call tm.addr ∉ s.trace) (hnone : ∀ e ∈ s.scheduled, e.1 ≠ tm.addr) :
    Core { s with trace := .call tm.addr :: s.trace } := by
  have hold {event' : TimerEvent} (hmem : event' ∈ .call tm.addr :: s.trace) (hcall : event' ≠ .call tm.addr) :
      event' ∈ s.trace := mem_of_ne_of_mem hcall hmem
  refine {
    addrs := h.addrs
    ids := h.ids
    fresh := fun event' hmem a ha => ?_
    made := fun tm htm => mem_cons_of_mem _ (h.made tm htm)
    unique := fun tm tm' hmem hmem' => h.unique tm tm' (hold hmem (by simp)) (hold hmem' (by simp))
    live := fun tm htm hmem => h.live tm htm (hold hmem (by simp))
    opened := fun hclosed hmem => h.opened hclosed (hold hmem (by simp))
    order := ?_
    oneShot := fun tm' hmem hrepeating => ?_
    scheduled := h.scheduled
    called := fun tm' htm' hrepeating hmem => ?_ }
  · obtain rfl | hmem := mem_cons.mp hmem
    · cases ha
      exact h.addr_lt htm
    · exact h.fresh event' hmem a ha
  · rw [pairwise_cons]
    exact ⟨fun earlier hmem => (h.follow htm hmem).2.2.2 hclosed, h.order⟩
  · have hset := hold hmem (by simp)
    by_cases heq : tm'.addr = tm.addr
    · obtain rfl := h.unique tm' tm hset (h.made tm htm) heq
      have hcount := count_eq_zero_of_not_mem (hfirst hrepeating)
      rw [count_cons_self]
      omega
    · rw [count_cons_of_ne (by simpa using Ne.symm heq)]
      exact h.oneShot tm' hset hrepeating
  · by_cases heq : tm'.addr = tm.addr
    · rw [heq]
      exact hnone
    · exact h.called tm' htm' hrepeating (hold hmem (by simpa using heq))

theorem timerUnlink (h : s.Core) (cancel : Bool) (htm : tm ∈ s.timers)
    (hnone : cancel = false → ∀ e ∈ s.scheduled, e.1 ≠ tm.addr) :
    (s.timerUnlink tm cancel).Core := by
  have hold {event' : TimerEvent} (hmem : event' ∈ .release tm.addr :: s.trace) (hne : event' ≠ .release tm.addr) :
      event' ∈ s.trace := mem_of_ne_of_mem hne hmem
  have hscheduled {e : Nat × Int} (he : e ∈ if cancel then (s.unschedule tm.addr).scheduled else s.scheduled) :
      e ∈ s.scheduled ∧ e.1 ≠ tm.addr := by
    cases cancel with
    | true => exact mem_unschedule.mp he
    | false => exact ⟨he, hnone rfl e he⟩
  have hmem_iff {tm' : Timer} : tm' ∈ s.timers.eraseP (fun scan => decide (scan.addr = tm.addr)) ↔
      tm' ∈ s.timers ∧ tm'.addr ≠ tm.addr := mem_eraseP h.addrs
  have hsub : (s.timers.eraseP fun scan => decide (scan.addr = tm.addr)).Sublist s.timers := eraseP_sublist
  rw [timerUnlink_eq]
  refine {
    addrs := h.addrs.sublist (hsub.map _)
    ids := h.ids.sublist (hsub.map _)
    fresh := fun event' hmem a ha => ?_
    made := fun tm htm => mem_cons_of_mem _ (h.made tm (hsub.subset htm))
    unique := fun tm tm' hmem hmem' => h.unique tm tm' (hold hmem (by simp)) (hold hmem' (by simp))
    live := fun tm' htm' hmem => ?_
    opened := fun hclosed hmem => h.opened hclosed (hold hmem (by simp))
    order := ?_
    oneShot := fun tm' hmem hrepeating => ?_
    scheduled := fun e he => ?_
    called := fun tm' htm' hrepeating hmem e he => ?_ }
  · obtain rfl | hmem := mem_cons.mp hmem
    · cases ha
      exact h.addr_lt htm
    · exact h.fresh event' hmem a ha
  · obtain ⟨htm', hne⟩ := hmem_iff.mp htm'
    exact h.live tm' htm' (hold hmem (by simpa using hne))
  · rw [pairwise_cons]
    exact ⟨fun earlier hmem => (h.follow htm hmem).2.2.1, h.order⟩
  · rw [count_cons_of_ne (by simp)]
    exact h.oneShot tm' (hold hmem (by simp)) hrepeating
  · obtain ⟨he, hne⟩ := hscheduled he
    obtain ⟨tm', htm', heq⟩ := h.scheduled e he
    exact ⟨tm', hmem_iff.mpr ⟨htm', heq ▸ hne⟩, heq⟩
  · exact h.called tm' (hsub.subset htm') hrepeating (hold hmem (by simp)) e (hscheduled he).1

theorem schedule (h : s.Core) (ms : Int) (memory : Bool) (htm : tm ∈ s.timers)
    (hcall : tm.repeating = false → .call tm.addr ∉ s.trace) :
    (s.schedule ms tm.addr memory).Core := by
  rw [schedule_eq]
  refine { h with
    scheduled := fun e he => ?_
    called := fun tm' htm' hrepeating hmem e he => ?_ }
  · obtain ⟨he, -⟩ | ⟨rfl, -⟩ := mem_schedule.mp he
    · exact h.scheduled e he
    · exact ⟨tm, htm, rfl⟩
  · obtain ⟨he, -⟩ | ⟨rfl, -⟩ := mem_schedule.mp he
    · exact h.called tm' htm' hrepeating hmem e he
    · intro heq
      obtain rfl := h.eq_of_addr htm htm' heq
      exact hcall hrepeating hmem

theorem set (h : s.Core) (nextTimer : Int) (haddr : tm.addr = s.nextAddr) (hid : ∀ tm' ∈ s.timers, tm'.id ≠ tm.id) :
    Core { s with
      nextTimer := nextTimer, timers := tm :: s.timers, nextAddr := s.nextAddr + 1, trace := .set tm :: s.trace } := by
  have hold {event' : TimerEvent} (hmem : event' ∈ .set tm :: s.trace) (hne : event' ≠ .set tm) :
      event' ∈ s.trace := mem_of_ne_of_mem hne hmem
  have hnew {event' : TimerEvent} (hmem : event' ∈ s.trace) (ha : event'.addr? = some tm.addr) : False := by
    have hlt := h.fresh event' hmem _ ha
    rw [haddr] at hlt
    exact Nat.lt_irrefl _ hlt
  refine {
    addrs := ?_
    ids := ?_
    fresh := fun event' hmem a ha => ?_
    made := fun tm' htm' => ?_
    unique := fun tm₁ tm₂ hmem₁ hmem₂ heq => ?_
    live := fun tm' htm' hmem => ?_
    opened := fun hclosed hmem => h.opened hclosed (hold hmem (by simp))
    order := ?_
    oneShot := fun tm' hmem hrepeating => ?_
    scheduled := fun e he => ?_
    called := fun tm' htm' hrepeating hmem e he => ?_ }
  · rw [map_cons, nodup_cons]
    refine ⟨fun hmem => ?_, h.addrs⟩
    obtain ⟨tm', htm', heq⟩ := mem_map.mp hmem
    exact hnew (h.made tm' htm') (congrArg some heq)
  · rw [map_cons, nodup_cons]
    refine ⟨fun hmem => ?_, h.ids⟩
    obtain ⟨tm', htm', heq⟩ := mem_map.mp hmem
    exact hid tm' htm' heq
  · obtain rfl | hmem := mem_cons.mp hmem
    · cases ha
      exact haddr ▸ Nat.lt_succ_self _
    · exact Nat.lt_succ_of_lt (h.fresh event' hmem a ha)
  · obtain rfl | htm' := mem_cons.mp htm'
    · exact mem_cons_self
    · exact mem_cons_of_mem _ (h.made tm' htm')
  · obtain heq₁ | hmem₁ := mem_cons.mp hmem₁ <;> obtain heq₂ | hmem₂ := mem_cons.mp hmem₂
    · exact (TimerEvent.set.inj heq₁).trans (TimerEvent.set.inj heq₂).symm
    · rw [TimerEvent.set.inj heq₁] at heq
      exact (hnew hmem₂ (congrArg some heq.symm)).elim
    · rw [TimerEvent.set.inj heq₂] at heq
      exact (hnew hmem₁ (congrArg some heq)).elim
    · exact h.unique tm₁ tm₂ hmem₁ hmem₂ heq
  · have hearlier := hold hmem (by simp)
    obtain rfl | htm' := mem_cons.mp htm'
    · exact hnew hearlier rfl
    · exact h.live tm' htm' hearlier
  · rw [pairwise_cons]
    refine ⟨fun earlier _ => ?_, h.order⟩
    cases earlier <;> trivial
  · rw [count_cons_of_ne (by simp)]
    obtain heq | hmem := mem_cons.mp hmem
    · rw [TimerEvent.set.inj heq, count_eq_zero_of_not_mem fun hcall => hnew hcall rfl]
      exact Nat.zero_le _
    · exact h.oneShot tm' hmem hrepeating
  · obtain ⟨tm', htm', heq⟩ := h.scheduled e he
    exact ⟨tm', mem_cons_of_mem _ htm', heq⟩
  · have hearlier := hold hmem (by simp)
    obtain rfl | htm' := mem_cons.mp htm'
    · exact (hnew hearlier rfl).elim
    · exact h.called tm' htm' hrepeating hearlier e he

end Core

/-! ## Between the steps -/

/-- An interval that ran is scheduled, and the timer that runs is there, or its code is a text and no other timer
has its id. -/
structure Inv (s : Timers) : Prop extends Core s where
  interval : ∀ tm ∈ s.timers, tm.repeating = true → .call tm.addr ∈ s.trace → s.running ≠ some tm →
    (tm.addr, tm.ms) ∈ s.scheduled
  running : ∀ tm, s.running = some tm → .call tm.addr ∈ s.trace ∧
    (tm ∈ s.timers ∨ tm.run.isCode = true ∧ ∀ tm' ∈ s.timers, tm'.id ≠ tm.id)

theorem Inv.kept (hi : s.Inv) : TimersKept s :=
  ⟨hi.order, hi.oneShot, hi.interval, hi.ids, hi.scheduled⟩

theorem inv_empty : empty.Inv where
  addrs := nodup_nil
  ids := nodup_nil
  fresh _ h := nomatch h
  made _ h := nomatch h
  unique _ _ h := nomatch h
  live _ h := nomatch h
  opened _ h := nomatch h
  order := List.Pairwise.nil
  oneShot _ h := nomatch h
  scheduled _ h := nomatch h
  called _ h := nomatch h
  interval _ h := nomatch h
  running _ h := nomatch h

theorem Inv.timerUnlink (hi : s.Inv) (htm : tm ∈ s.timers)
    (hrun : s.running = some tm → tm.run.isCode = true) : (s.timerUnlink tm true).Inv := by
  have hcore : (s.timerUnlink tm true).Core := hi.toCore.timerUnlink true htm (fun h => nomatch h)
  have hmem_iff {tm' : Timer} : tm' ∈ s.timers.eraseP (fun scan => decide (scan.addr = tm.addr)) ↔
      tm' ∈ s.timers ∧ tm'.addr ≠ tm.addr := mem_eraseP hi.addrs
  rw [timerUnlink_eq] at hcore ⊢
  refine { hcore with interval := fun tm' htm' hrepeating hmem hne => ?_, running := fun tm' htm' => ?_ }
  · obtain ⟨htm', haddr⟩ := hmem_iff.mp htm'
    refine mem_unschedule.mpr ⟨hi.interval tm' htm' hrepeating ?_ hne, haddr⟩
    exact mem_of_ne_of_mem (by simp) hmem
  · obtain ⟨hcall, hthere⟩ := hi.running tm' htm'
    refine ⟨mem_cons_of_mem _ hcall, ?_⟩
    obtain hthere | ⟨hcode, hid⟩ := hthere
    · by_cases haddr : tm'.addr = tm.addr
      · obtain rfl := hi.eq_of_addr hthere htm haddr
        refine .inr ⟨hrun htm', fun tm₁ htm₁ hid => ?_⟩
        obtain ⟨htm₁, hne⟩ := hmem_iff.mp htm₁
        exact hne (congrArg Timer.addr (hi.eq_of_id htm₁ hthere hid))
      · exact .inl (hmem_iff.mpr ⟨hthere, haddr⟩)
    · exact .inr ⟨hcode, fun tm₁ htm₁ => hid tm₁ (hmem_iff.mp htm₁).1⟩

theorem Inv.close (hi : s.Inv) : Inv { s with closed := true, trace := .close :: s.trace } := by
  have hold {event : TimerEvent} (hmem : event ∈ .close :: s.trace) (hne : event ≠ .close) : event ∈ s.trace :=
    mem_of_ne_of_mem hne hmem
  refine { hi with
    fresh := fun event hmem a ha => ?_
    made := fun tm htm => mem_cons_of_mem _ (hi.made tm htm)
    unique := fun tm tm' hmem hmem' => hi.unique tm tm' (hold hmem (by simp)) (hold hmem' (by simp))
    live := fun tm htm hmem => hi.live tm htm (hold hmem (by simp))
    opened := fun h => nomatch h
    order := ?_
    oneShot := fun tm hmem hrepeating => ?_
    called := fun tm htm hrepeating hmem => hi.called tm htm hrepeating (hold hmem (by simp))
    interval := fun tm htm hrepeating hmem hne => hi.interval tm htm hrepeating (hold hmem (by simp)) hne
    running := fun tm htm => ⟨mem_cons_of_mem _ (hi.running tm htm).1, (hi.running tm htm).2⟩ }
  · obtain rfl | hmem := mem_cons.mp hmem
    · cases ha
    · exact hi.fresh event hmem a ha
  · rw [pairwise_cons]
    refine ⟨fun earlier _ => ?_, hi.order⟩
    cases earlier <;> trivial
  · rw [count_cons_of_ne (by simp)]
    exact hi.oneShot tm (hold hmem (by simp)) hrepeating

theorem Inv.clearTimer (hi : s.Inv) (hsafe : TimerOp.Safe (.clear id) s) : (s.clearTimer id).Inv := by
  unfold Timers.clearTimer
  cases hfind : s.timerFind id with
  | none => exact hi
  | some tm =>
    apply hi.timerUnlink (mem_of_find?_eq_some hfind)
    intro hrunning
    by_contra hrun
    exact hsafe tm hrunning (Bool.eq_false_iff.mpr hrun) hfind

theorem Inv.teardown {timers : List Timer} (hi : s.Inv) (hs : s.timers = timers)
    (hrun : ∀ tm, s.running = some tm → tm.run.isCode = false → tm ∉ timers) :
    (s.teardown timers).Inv ∧ (s.teardown timers).timers = [] := by
  induction timers generalizing s with
  | nil => exact ⟨hi, hs⟩
  | cons tm rest ih =>
    unfold Timers.teardown
    have htm : tm ∈ s.timers := hs ▸ mem_cons_self
    apply ih
    · apply hi.timerUnlink htm
      intro hrunning
      by_contra hcode
      exact hrun tm hrunning (Bool.eq_false_iff.mpr hcode) mem_cons_self
    · rw [timerUnlink_eq]
      dsimp only
      rw [hs, eraseP_cons_of_pos (by simp)]
    · intro tm' hrunning hcode hmem
      exact hrun tm' (by simpa [timerUnlink_eq] using hrunning) hcode (mem_cons_of_mem _ hmem)

theorem Inv.set (hi : s.Inv) {nextTimer : Int} (haddr : tm.addr = s.nextAddr)
    (hid : ∀ tm', tm' ∈ s.timers ∨ s.running = some tm' → tm'.id ≠ tm.id) :
    (Timers.schedule { s with
      nextTimer := nextTimer, timers := tm :: s.timers, nextAddr := s.nextAddr + 1, trace := .set tm :: s.trace }
      tm.ms tm.addr memory).Inv := by
  have hset := hi.toCore.set nextTimer haddr fun tm' htm' => hid tm' (.inl htm')
  have hfresh : .call tm.addr ∉ s.trace := by
    intro hmem
    have hlt := hi.fresh _ hmem _ rfl
    rw [haddr] at hlt
    exact Nat.lt_irrefl _ hlt
  have hcore := hset.schedule tm.ms memory mem_cons_self fun _ hmem =>
    hfresh (mem_of_ne_of_mem (by simp) hmem)
  rw [schedule_eq] at hcore ⊢
  refine { hcore with interval := fun tm' htm' hrepeating hmem hne => ?_, running := fun tm' htm' => ?_ }
  · have hcall := mem_of_ne_of_mem (by simp) hmem
    obtain rfl | htm' := mem_cons.mp htm'
    · exact absurd hcall hfresh
    · refine mem_schedule.mpr (.inl ⟨hi.interval tm' htm' hrepeating hcall hne, ?_⟩)
      exact Nat.ne_of_lt (haddr ▸ hi.addr_lt htm')
  · obtain ⟨hcall, hthere⟩ := hi.running tm' htm'
    refine ⟨mem_cons_of_mem _ hcall, ?_⟩
    obtain hthere | ⟨hcode, hother⟩ := hthere
    · exact .inl (mem_cons_of_mem _ hthere)
    · refine .inr ⟨hcode, fun tm₁ htm₁ => ?_⟩
      obtain rfl | htm₁ := mem_cons.mp htm₁
      · exact (hid tm' (.inr htm')).symm
      · exact hother tm₁ htm₁

theorem Inv.setTimer (hi : s.Inv) {repeating : Bool} {ms : Option Int} {run : TimerCode} {calloc code memory : Bool}
    (hsafe : TimerOp.Safe (.set repeating ms run calloc code memory) s) :
    (s.setTimer repeating ms run calloc code memory).1.Inv := by
  unfold Timers.setTimer
  split
  · exact hi
  · next hopen =>
    dsimp only
    split
    · exact hi
    · next hcalloc =>
      split
      · exact { hi with }
      · next hcode =>
        apply hi.set rfl
        exact hsafe (Bool.eq_false_iff.mpr hopen) (by simpa using hcalloc) (by simpa using hcode)

theorem Inv.timerFire (hi : s.Inv) (hrunning : s.running = none) (hempty : s.closed = true → s.timers = [])
    (htm : tm ∈ s.timers) (hthere : ∃ e ∈ s.scheduled, e.1 = tm.addr) : (s.timerFire tm.addr).Inv := by
  have hclosed : s.closed = false := by
    rw [Bool.eq_false_iff]
    intro hclosed
    rw [hempty hclosed] at htm
    cases htm
  have hfind : (s.unschedule tm.addr).timers.find? (fun scan => decide (scan.addr = tm.addr)) = some tm := by
    show s.timers.find? (fun scan => decide (scan.addr = tm.addr)) = some tm
    cases hfind : s.timers.find? (fun scan => decide (scan.addr = tm.addr)) with
    | none =>
      rw [List.find?_eq_none] at hfind
      exact absurd (decide_eq_true rfl) (hfind tm htm)
    | some scan =>
      have haddr := List.find?_some hfind
      rw [decide_eq_true_iff] at haddr
      rw [hi.eq_of_addr (mem_of_find?_eq_some hfind) htm haddr]
  have hunschedule : (s.unschedule tm.addr).Core := { hi.toCore with
    scheduled := fun e he => hi.scheduled e (mem_unschedule.mp he).1
    called := fun tm' htm' hrepeating hmem e he => hi.called tm' htm' hrepeating hmem e (mem_unschedule.mp he).1 }
  have hread := hunschedule.record htm (.inl rfl)
  have hcall := hread.call htm hclosed (fun hrepeating hmem => ?_) fun e he => (mem_unschedule.mp he).2
  · unfold Timers.timerFire
    simp only [hfind]
    rw [if_neg (by simpa [unschedule] using hclosed)]
    refine { hcall with interval := fun tm' htm' hrepeating hmem hne => ?_, running := fun tm' htm' => ?_ }
    · have hother : tm'.addr ≠ tm.addr := by
        intro heq
        apply hne
        rw [hi.eq_of_addr htm' htm heq]
      have hmem := mem_of_ne_of_mem (by simpa using hother) hmem
      have hmem := mem_of_ne_of_mem (by simp) hmem
      refine mem_unschedule.mpr ⟨hi.interval tm' htm' hrepeating hmem ?_, hother⟩
      rw [hrunning]
      simp
    · cases htm'
      exact ⟨mem_cons_self, .inl htm⟩
  · obtain ⟨e, he, haddr⟩ := hthere
    exact hi.called tm htm hrepeating (mem_of_ne_of_mem (by simp) hmem) e he haddr

theorem Inv.callReturns (hi : s.Inv) (hrunning : s.running = some again)
    (hsafe : TimerOp.Safe (.callReturns memory) s) : (s.callReturns again memory).Inv := by
  obtain ⟨hcall, hthere⟩ := hi.running again hrunning
  unfold Timers.callReturns
  -- The function of the timer is still held.
  have hcore : Core { s with
      running := none
      trace := if again.run.isCode then s.trace else .func again.addr :: s.trace } := by
    split
    · exact { hi.toCore with }
    · next hfunc =>
      obtain hthere | ⟨hcode, -⟩ := hthere
      · exact { hi.toCore.record hthere (.inr rfl) with }
      · exact absurd hcode hfunc
  have hcalled {a : Nat} : .call a ∈ (if again.run.isCode then s.trace else .func again.addr :: s.trace) ↔
      .call a ∈ s.trace := by
    split
    · rfl
    · simp
  obtain hthere | ⟨hcode, hid⟩ := hthere
  · have hfind := hcore.timerFind hthere
    simp only [hfind]
    split
    · next hrepeating =>
      have hmemory := hsafe again hrunning hthere hrepeating
      have hcore := hcore.schedule again.ms memory hthere fun h => absurd hrepeating (by simp [h])
      rw [schedule_eq] at hcore ⊢
      refine { hcore with interval := fun tm' htm' hrepeating' hmem hne => ?_, running := fun _ h => nomatch h }
      rw [mem_schedule]
      by_cases haddr : tm'.addr = again.addr
      · obtain rfl := hi.eq_of_addr htm' hthere haddr
        exact .inr ⟨rfl, .inl hmemory⟩
      · refine .inl ⟨hi.interval tm' htm' hrepeating' (hcalled.mp hmem) ?_, haddr⟩
        rw [hrunning]
        intro heq
        exact haddr (congrArg Timer.addr (Option.some.inj heq)).symm
    · next hrepeating =>
      have hrepeating := Bool.eq_false_iff.mpr hrepeating
      have hcore := hcore.timerUnlink false hthere fun _ => hi.called again hthere hrepeating hcall
      rw [timerUnlink_eq] at hcore ⊢
      refine { hcore with interval := fun tm' htm' hrepeating' hmem hne => ?_, running := fun _ h => nomatch h }
      obtain ⟨htm', haddr⟩ := (mem_eraseP hi.addrs).mp htm'
      refine hi.interval tm' htm' hrepeating' (hcalled.mp (mem_of_ne_of_mem (by simp) hmem)) ?_
      rw [hrunning]
      intro heq
      exact haddr (congrArg Timer.addr (Option.some.inj heq)).symm
  · -- The timer was cleared, and no other has its id.
    have hfind : s.timerFind again.id = none := by
      unfold Timers.timerFind
      rw [List.find?_eq_none]
      intro tm' htm' heq
      exact hid tm' htm' (of_decide_eq_true heq)
    unfold Timers.timerFind at hfind ⊢
    simp only [hfind]
    refine { hcore with interval := fun tm' htm' hrepeating hmem hne => ?_, running := fun _ h => nomatch h }
    refine hi.interval tm' htm' hrepeating (hcalled.mp hmem) ?_
    rw [hrunning]
    intro heq
    cases heq
    exact hid _ htm' rfl

/-! ## Runs -/

theorem setTimer_closed (s : Timers) (repeating : Bool) (ms : Option Int) (run : TimerCode)
    (calloc code memory : Bool) : (s.setTimer repeating ms run calloc code memory).1.closed = s.closed ∧
      (s.closed = true → (s.setTimer repeating ms run calloc code memory).1.timers = s.timers) := by
  unfold Timers.setTimer
  split
  · exact ⟨rfl, fun _ => rfl⟩
  · next hopen =>
    dsimp only
    split
    · exact ⟨rfl, fun _ => rfl⟩
    · split
      · exact ⟨rfl, fun _ => rfl⟩
      · rw [schedule_eq]
        exact ⟨rfl, fun h => absurd h hopen⟩

theorem timerFire_timers (s : Timers) (addr : Nat) :
    (s.timerFire addr).timers = s.timers ∧ (s.timerFire addr).closed = s.closed := by
  unfold Timers.timerFire
  dsimp only
  split
  · exact ⟨rfl, rfl⟩
  · split <;> exact ⟨rfl, rfl⟩

theorem timerUnlink_empty (hempty : s.closed = true → s.timers = []) :
    (s.timerUnlink tm cancel).closed = true → (s.timerUnlink tm cancel).timers = [] := by
  rw [timerUnlink_eq]
  intro hclosed
  dsimp only
  rw [hempty hclosed]
  rfl

theorem Inv.exec {op : TimerOp} {s' : Timers} (hi : s.Inv) (hempty : s.closed = true → s.timers = [])
    (hsafe : op.Safe s) (h : op.exec s = some s') : s'.Inv ∧ (s'.closed = true → s'.timers = []) := by
  cases op with
  | set repeating ms run calloc code memory =>
    obtain ⟨-, h⟩ := Option.ite_none_left_eq_some.mp h
    cases h
    obtain ⟨hclosed, htimers⟩ := s.setTimer_closed repeating ms run calloc code memory
    refine ⟨hi.setTimer hsafe, fun h => ?_⟩
    rw [hclosed] at h
    exact (htimers h).trans (hempty h)
  | clear id =>
    obtain ⟨-, h⟩ := Option.ite_none_left_eq_some.mp h
    cases h
    refine ⟨hi.clearTimer hsafe, ?_⟩
    unfold Timers.clearTimer
    split
    · exact timerUnlink_empty hempty
    · exact hempty
  | fire addr =>
    obtain ⟨hguard, h⟩ := Option.ite_none_right_eq_some.mp h
    cases h
    rw [Bool.and_eq_true, Option.isNone_iff_eq_none, any_eq_true] at hguard
    obtain ⟨hrunning, e, he, heq⟩ := hguard
    obtain rfl := of_decide_eq_true heq
    obtain ⟨tm, htm, haddr⟩ := hi.scheduled e he
    obtain ⟨htimers, hclosed⟩ := s.timerFire_timers e.1
    rw [htimers, hclosed]
    refine ⟨?_, hempty⟩
    rw [← haddr]
    exact hi.timerFire hrunning hempty htm ⟨e, he, haddr.symm⟩
  | callReturns memory =>
    obtain ⟨again, hrunning, rfl⟩ := Option.map_eq_some_iff.mp h
    refine ⟨hi.callReturns hrunning hsafe, ?_⟩
    unfold Timers.callReturns
    dsimp only
    split
    · exact hempty
    · split
      · rw [schedule_eq]
        exact hempty
      · exact timerUnlink_empty hempty
  | closethread =>
    obtain ⟨-, h⟩ := Option.ite_none_left_eq_some.mp h
    cases h
    obtain ⟨hinv, hnil⟩ := hi.close.teardown rfl hsafe
    exact ⟨hinv, fun _ => hnil⟩
  | destroythread =>
    obtain ⟨hguard, h⟩ := Option.ite_none_right_eq_some.mp h
    cases h
    rw [Bool.and_eq_true, Option.isNone_iff_eq_none] at hguard
    obtain ⟨hinv, hnil⟩ := hi.teardown rfl fun tm hrunning => by
      rw [hguard.1] at hrunning
      cases hrunning
    exact ⟨{ hinv with }, fun _ => hnil⟩

end Timers

/-- In a run in which no function of a timer is released while it runs and ids are free, timers live as they
should. -/
theorem timersKept_of_run {ops : List TimerOp} {s : Timers} (hr : timerSystem.Run TimerOp.Safe ops s) :
    TimersKept s := by
  have hi : s.Inv ∧ (s.closed = true → s.timers = []) := by
    apply hr.invariant
    · rintro s rfl
      exact ⟨Timers.inv_empty, fun _ => rfl⟩
    · intro op s s' hsafe hexec hi
      exact hi.1.exec hi.2 hsafe hexec
  exact hi.1.kept

/-- An interval whose text clears it when it runs for the second time, and a timer that this sets. -/
theorem intervalRun_kept : ∃ s, timerSystem.Run TimerOp.Safe
      [.set true none (.code "tick()") true true true, .fire 0, .callReturns true, .fire 0, .clear 1,
        .set false (some 50) (.func 7) true true true, .callReturns true, .fire 1, .callReturns true] s ∧
    TimersKept s ∧ s.timers = [] ∧ s.scheduled = [] := by
  have hrun : timerSystem.Run TimerOp.Safe [] .empty := .start rfl
  have hrun := hrun.step (.set true none (.code "tick()") true true true) (by
    intro _ _ _ tm htm
    obtain htm | htm := htm <;> cases htm) rfl
  have hrun := hrun.step (.fire 0) trivial rfl
  have hrun := hrun.step (.callReturns true) (fun _ _ _ _ => rfl) rfl
  have hrun := hrun.step (.fire 0) trivial rfl
  have hrun := hrun.step (.clear 1) (by
    intro tm htm hcode
    cases htm
    cases hcode) rfl
  have hrun := hrun.step (.set false (some 50) (.func 7) true true true) (by
    intro _ _ _ tm htm
    obtain htm | htm := htm <;> cases htm
    decide) rfl
  have hrun := hrun.step (.callReturns true) (fun _ _ _ _ => rfl) rfl
  have hrun := hrun.step (.fire 1) trivial rfl
  have hrun := hrun.step (.callReturns true) (fun _ _ _ _ => rfl) rfl
  exact ⟨_, hrun, timersKept_of_run hrun, rfl, rfl⟩

/-- An interval whose function clears it: the function goes on when it is released. -/
theorem not_timersKept : ¬ ∀ ops s, timerSystem.AnyRun ops s → TimersKept s := by
  intro h
  have hrun : timerSystem.AnyRun [] .empty := .start rfl
  have hrun := hrun.step (.set true none (.func 7) true true true) trivial rfl
  have hrun := hrun.step (.fire 0) trivial rfl
  have hrun := hrun.step (.clear 1) trivial rfl
  have hrun := hrun.step (.callReturns true) trivial rfl
  have horder := (h _ _ hrun).order
  exact (pairwise_cons.mp horder).1 (.release 0) mem_cons_self rfl

end Nami.Script
