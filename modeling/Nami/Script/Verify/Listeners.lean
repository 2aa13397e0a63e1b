import Mathlib.Data.List.Nodup
import Nami.Script.Listeners

/-!
# Dispatch of events to script listeners

A dispatch calls each listener that it finds and that is not removed before its turn, and each type has one
registration with libdom. `Ahead` is what a dispatch knows of the records that it has not reached.
-/

namespace Nami.Script

open List

/-- Each listener that was to be called and was not removed before is called once, and no other. -/
def Dispatch.Exact (d : Dispatch) : Prop := d.called.Nodup ∧ ∀ a, a ∈ d.called ↔ a ∈ d.due ∧ a ∉ d.gone

/-- A record that is registered with libdom for a type. -/
def registeredFor (type : Nat) (lis : Listener) : Bool := decide (lis.type = type) && lis.domRegistered

/-- Two records of one node, type and function. -/
def SameListener (lis lis' : Listener) : Prop := lis.node = lis'.node ∧ lis.type = lis'.type ∧ lis.func = lis'.func

/-- The dispatches called what they had to, no call came late and no freed record was read; each type with
listeners has one that is registered, and libdom no other registration. -/
structure Dispatched (s : Listeners) : Prop where
  exact : ∀ d ∈ s.finished, d.Exact
  late : s.late = []
  freedReads : s.freedReads = []
  registered : ∀ type, s.listeners.countP (registeredFor type) =
    if (s.listeners.any fun lis => decide (lis.type = type)) = true then 1 else 0
  dom : ∀ type, s.dom.count type = s.listeners.countP (registeredFor type)
  distinct : s.listeners.Pairwise fun lis lis' => ¬ SameListener lis lis'

/-- No listener is removed in its own call, none is left to be called when a call closed the thread, and what is
added is not there and is registered where its type is not. -/
def ListenerOp.Safe (op : ListenerOp) (s : Listeners) : Prop :=
  match op with
  | callReturns => ∀ d, s.dispatch = some d → s.closed = true →
    ∀ lis ∈ Listeners.after d.lis s.listeners, Dispatch.calls d.type d.path lis = false
  | addEventListener node type func calloc register => s.closed = false → calloc = true →
    (∀ lis ∈ s.listeners, Listeners.isFor node type func lis = false) ∧
      ((∀ lis ∈ s.listeners, registeredFor type lis = false) → register = true)
  | removeEventListener node type func => ∀ d lis, s.dispatch = some d →
    s.listeners.find? (Listeners.isFor node type func) = some lis → lis.addr ≠ d.lis
  | _ => True

/-! ## Records that only differ in their registration -/

/-- A record without its registration. -/
def Listener.key (lis : Listener) : Listener := { lis with domRegistered := false }

namespace Listeners

variable {s : Listeners} {d : Dispatch} {lis cur : Listener} {rest rest' before listeners : List Listener}
  {type node func addr : Nat}

theorem after_append (h : addr ∉ before.map Listener.addr) (hcur : cur.addr = addr) :
    after addr (before ++ cur :: rest) = rest := by
  unfold after
  have hall : ∀ lis ∈ before, decide (lis.addr ≠ addr) = true := by
    intro lis hlis
    rw [decide_eq_true_iff]
    rintro rfl
    exact h (mem_map_of_mem hlis)
  rw [dropWhile_append_of_pos hall, dropWhile_cons_of_neg (by simpa using hcur)]
  rfl

theorem map_key_handOver (type : Nat) (listeners : List Listener) :
    (handOver type listeners).map Listener.key = listeners.map Listener.key := by
  induction listeners with
  | nil => rfl
  | cons scan rest ih =>
    unfold handOver
    split
    · rfl
    · rw [map_cons, map_cons, ih]

/-! ## What is ahead of a dispatch -/

/-- What a dispatch knows of the records that it has not reached. -/
structure Ahead (d : Dispatch) (rest : List Listener) : Prop where
  nodup : d.called.Nodup
  called : ∀ a ∈ d.called, a ∈ d.due ∧ a ∉ d.gone
  ahead : ∀ lis ∈ rest, lis.addr ∉ d.called ∧ lis.addr ∉ d.gone ∧
    (Dispatch.calls d.type d.path lis = true → lis.addr ∈ d.due)
  due : ∀ a ∈ d.due, a ∈ d.called ∨ a ∈ d.gone ∨ ∃ lis ∈ rest, lis.addr = a ∧ Dispatch.calls d.type d.path lis = true

theorem Ahead.congr (h : Ahead d rest) (hkey : rest'.map Listener.key = rest.map Listener.key) : Ahead d rest' := by
  have hto {lis : Listener} {l l' : List Listener} (hl : l'.map Listener.key = l.map Listener.key) (hlis : lis ∈ l') :
      ∃ lis' ∈ l, lis'.key = lis.key := by
    have hmem := mem_map_of_mem (f := Listener.key) hlis
    rw [hl] at hmem
    exact mem_map.mp hmem
  have haddr {lis lis' : Listener} (heq : lis'.key = lis.key) : lis'.addr = lis.addr := by
    show lis'.key.addr = lis.key.addr
    rw [heq]
  have hcalls {lis lis' : Listener} (heq : lis'.key = lis.key) :
      Dispatch.calls d.type d.path lis' = Dispatch.calls d.type d.path lis := by
    show Dispatch.calls d.type d.path lis'.key = Dispatch.calls d.type d.path lis.key
    rw [heq]
  refine { h with ahead := fun lis hlis => ?_, due := fun a ha => ?_ }
  · obtain ⟨lis', hlis', heq⟩ := hto hkey hlis
    have hrest := h.ahead lis' hlis'
    rwa [haddr heq, hcalls heq] at hrest
  · obtain hcalled | hgone | ⟨lis, hlis, rfl, hlisCalls⟩ := h.due a ha
    · exact .inl hcalled
    · exact .inr (.inl hgone)
    · obtain ⟨lis', hlis', heq⟩ := hto hkey.symm hlis
      exact .inr (.inr ⟨lis', hlis', haddr heq, (hcalls heq).trans hlisCalls⟩)

theorem Ahead.call {skipped : List Listener} (h : Ahead d (skipped ++ lis :: rest))
    (hskipped : ∀ x ∈ skipped, Dispatch.calls d.type d.path x = false)
    (hcalls : Dispatch.calls d.type d.path lis = true) (hne : ∀ x ∈ rest, x.addr ≠ lis.addr) :
    Ahead { d with lis := lis.addr, called := lis.addr :: d.called } rest := by
  obtain ⟨hcalled, hgone, hdue⟩ := h.ahead lis (mem_append_right _ mem_cons_self)
  refine ⟨nodup_cons.mpr ⟨hcalled, h.nodup⟩, fun a ha => ?_, fun x hx => ?_, fun a ha => ?_⟩
  · obtain rfl | ha := mem_cons.mp ha
    · exact ⟨hdue hcalls, hgone⟩
    · exact h.called a ha
  · obtain ⟨hxcalled, hrest⟩ := h.ahead x (mem_append_right _ (mem_cons_of_mem _ hx))
    refine ⟨fun hmem => ?_, hrest⟩
    obtain heq | hmem := mem_cons.mp hmem
    · exact hne x hx heq
    · exact hxcalled hmem
  · obtain ha | ha | ⟨x, hx, rfl, hxcalls⟩ := h.due a ha
    · exact .inl (mem_cons_of_mem _ ha)
    · exact .inr (.inl ha)
    · obtain hx | hx := mem_append.mp hx
      · rw [hskipped x hx] at hxcalls
        cases hxcalls
      · obtain rfl | hx := mem_cons.mp hx
        · exact .inl mem_cons_self
        · exact .inr (.inr ⟨x, hx, rfl, hxcalls⟩)

theorem Ahead.exact (h : Ahead d rest) (hrest : ∀ x ∈ rest, Dispatch.calls d.type d.path x = false) : d.Exact := by
  refine ⟨h.nodup, fun a => ⟨h.called a, fun ⟨hdue, hgone⟩ => ?_⟩⟩
  obtain hcalled | hmem | ⟨x, hx, -, hcalls⟩ := h.due a hdue
  · exact hcalled
  · exact absurd hmem hgone
  · rw [hrest x hx] at hcalls
    cases hcalls

theorem Ahead.remove {rest₁ rest₂ : List Listener} (h : Ahead d (rest₁ ++ lis :: rest₂))
    (hne : ∀ x ∈ rest₁ ++ rest₂, x.addr ≠ lis.addr) :
    Ahead { d with gone := lis.addr :: d.gone } (rest₁ ++ rest₂) := by
  have hmem {x : Listener} (hx : x ∈ rest₁ ++ rest₂) : x ∈ rest₁ ++ lis :: rest₂ := by
    obtain hx | hx := mem_append.mp hx
    · exact mem_append_left _ hx
    · exact mem_append_right _ (mem_cons_of_mem _ hx)
  obtain ⟨hcalled, -, -⟩ := h.ahead lis (mem_append_right _ mem_cons_self)
  refine ⟨h.nodup, fun a ha => ⟨(h.called a ha).1, fun hgone => ?_⟩, fun x hx => ?_, fun a ha => ?_⟩
  · obtain rfl | hgone := mem_cons.mp hgone
    · exact hcalled ha
    · exact (h.called a ha).2 hgone
  · obtain ⟨hxcalled, hxgone, hdue⟩ := h.ahead x (hmem hx)
    refine ⟨hxcalled, fun hgone => ?_, hdue⟩
    obtain heq | hgone := mem_cons.mp hgone
    · exact hne x hx heq
    · exact hxgone hgone
  · obtain ha | ha | ⟨x, hx, rfl, hxcalls⟩ := h.due a ha
    · exact .inl ha
    · exact .inr (.inl (mem_cons_of_mem _ ha))
    · obtain hx | hx := mem_append.mp hx
      · exact .inr (.inr ⟨x, mem_append_left _ hx, rfl, hxcalls⟩)
      · obtain rfl | hx := mem_cons.mp hx
        · exact .inr (.inl mem_cons_self)
        · exact .inr (.inr ⟨x, mem_append_right _ hx, rfl, hxcalls⟩)

theorem Ahead.pass (h : Ahead d rest) (hcalled : lis.addr ∉ d.called) (hne : ∀ x ∈ rest, x.addr ≠ lis.addr) :
    Ahead { d with gone := lis.addr :: d.gone } rest := by
  refine ⟨h.nodup, fun a ha => ⟨(h.called a ha).1, fun hgone => ?_⟩, fun x hx => ?_, fun a ha => ?_⟩
  · obtain rfl | hgone := mem_cons.mp hgone
    · exact hcalled ha
    · exact (h.called a ha).2 hgone
  · obtain ⟨hxcalled, hxgone, hdue⟩ := h.ahead x hx
    refine ⟨hxcalled, fun hgone => ?_, hdue⟩
    obtain heq | hgone := mem_cons.mp hgone
    · exact hne x hx heq
    · exact hxgone hgone
  · obtain ha | ha | hrest := h.due a ha
    · exact .inl ha
    · exact .inr (.inl (mem_cons_of_mem _ ha))
    · exact .inr (.inr hrest)

/-! ## The invariant -/

structure Inv (s : Listeners) : Prop where
  addrs : (s.listeners.map Listener.addr).Nodup
  fresh : ∀ lis ∈ s.listeners, lis.addr < s.nextAddr
  distinct : s.listeners.Pairwise fun lis lis' => ¬ SameListener lis lis'
  registered : ∀ type, s.listeners.countP (registeredFor type) =
    if (s.listeners.any fun lis => decide (lis.type = type)) = true then 1 else 0
  dom : ∀ type, s.dom.count type = s.listeners.countP (registeredFor type)
  hasDocument : s.listeners ≠ [] → s.hasDocument = true
  exact : ∀ d ∈ s.finished, d.Exact
  late : s.late = []
  freedReads : s.freedReads = []
  current : ∀ d, s.dispatch = some d → ∃ before lis rest, s.listeners = before ++ lis :: rest ∧ lis.addr = d.lis ∧
    Ahead d rest

theorem Inv.dispatched (hi : s.Inv) : Dispatched s :=
  ⟨hi.exact, hi.late, hi.freedReads, hi.registered, hi.dom, hi.distinct⟩

theorem inv_empty (hasDocument : Bool) : (empty hasDocument).Inv where
  addrs := nodup_nil
  fresh _ h := nomatch h
  distinct := List.Pairwise.nil
  registered _ := rfl
  dom _ := rfl
  hasDocument h := absurd rfl h
  exact _ h := nomatch h
  late := rfl
  freedReads := rfl
  current _ h := nomatch h

theorem Inv.addr_notMem (hi : s.Inv) (hs : s.listeners = before ++ lis :: rest) :
    lis.addr ∉ before.map Listener.addr ∧ ∀ x ∈ rest, x.addr ≠ lis.addr := by
  have hnodup := hi.addrs
  rw [hs, map_append, map_cons, nodup_middle, nodup_cons, mem_append, not_or] at hnodup
  refine ⟨hnodup.1.1, fun x hx heq => hnodup.1.2 ?_⟩
  rw [← heq]
  exact mem_map_of_mem hx

theorem Inv.walk (hi : s.Inv) (hs : s.listeners = before ++ rest) (hahead : Ahead d rest)
    (hopen : s.closed = true → ∀ lis ∈ rest, Dispatch.calls d.type d.path lis = false) : (s.walk d rest).Inv := by
  unfold Listeners.walk
  cases hfind : rest.find? (Dispatch.calls d.type d.path) with
  | none =>
    rw [List.find?_eq_none] at hfind
    refine { hi with exact := fun d' hd' => ?_, current := fun _ h => nomatch h }
    obtain rfl | hd' := mem_cons.mp hd'
    · exact hahead.exact fun x hx => Bool.not_eq_true _ ▸ hfind x hx
    · exact hi.exact d' hd'
  | some lis =>
    obtain ⟨hcalls, skipped, after, rfl, hskipped⟩ := List.find?_eq_some_iff_append.mp hfind
    have hlate : s.closed = false := by
      by_contra hclosed
      have hnot := hopen (Bool.not_eq_false _ ▸ hclosed) lis (mem_append_right _ mem_cons_self)
      rw [hcalls] at hnot
      cases hnot
    rw [← append_assoc] at hs
    refine { hi with late := ?_, current := ?_ }
    · show (if s.closed = true then lis.addr :: s.late else s.late) = []
      rw [hlate]
      exact hi.late
    · intro d' hd'
      cases hd'
      refine ⟨before ++ skipped, lis, after, hs, rfl, ?_⟩
      exact hahead.call (fun x hx => by simpa using hskipped x hx) hcalls (hi.addr_notMem hs).2

theorem Inv.event (hi : s.Inv) (type : Nat) (path : List Nat) : (s.domEventCallback type path).Inv := by
  unfold domEventCallback
  split
  · exact hi
  · next hopen =>
    apply hi.walk (nil_append _).symm
    · refine ⟨nodup_nil, fun _ h => (nomatch h), fun lis hlis => ?_, fun a ha => ?_⟩
      · refine ⟨not_mem_nil, not_mem_nil, fun hcalls => ?_⟩
        exact mem_map_of_mem (mem_filter.mpr ⟨hlis, hcalls⟩)
      · obtain ⟨lis, hlis, rfl⟩ := mem_map.mp ha
        obtain ⟨hlis, hcalls⟩ := mem_filter.mp hlis
        exact .inr (.inr ⟨lis, hlis, rfl, hcalls⟩)
    · exact fun hclosed => absurd hclosed hopen

theorem Inv.callReturns (hi : s.Inv) (hd : s.dispatch = some d) (hsafe : ListenerOp.Safe .callReturns s) :
    (s.callReturns d).Inv := by
  obtain ⟨before, lis, rest, hs, hlis, hahead⟩ := hi.current d hd
  have hafter : after d.lis s.listeners = rest := by
    rw [hs]
    exact after_append (hlis ▸ (hi.addr_notMem hs).1) hlis
  have hany : (s.listeners.any fun x => decide (x.addr = d.lis)) = true := by
    rw [any_eq_true]
    refine ⟨lis, ?_, decide_eq_true hlis⟩
    rw [hs]
    exact mem_append_right _ mem_cons_self
  have hopen := hsafe d hd
  unfold Listeners.callReturns
  rw [if_pos hany]
  rw [hafter] at hopen ⊢
  have hsplit : s.listeners = (before ++ [lis]) ++ rest := by
    rw [hs, append_assoc]
    rfl
  exact hi.walk hsplit hahead hopen

/-! ## Adding a listener -/

theorem isFor_iff : isFor node type func lis = true ↔ lis.node = node ∧ lis.type = type ∧ lis.func = func := by
  unfold isFor
  rw [Bool.and_eq_true, Bool.and_eq_true, decide_eq_true_iff, decide_eq_true_iff, decide_eq_true_iff, and_assoc]

theorem Inv.any_registered (hi : s.Inv) (type : Nat) : s.listeners.any (registeredFor type) =
    s.listeners.any fun lis => decide (lis.type = type) := by
  have hcount := hi.registered type
  rw [Bool.eq_iff_iff, any_eq_true, ← countP_pos_iff, hcount]
  split
  · next hany => simp [hany]
  · next hany => simp [hany]

theorem Inv.addEventListener (hi : s.Inv) {calloc register : Bool}
    (hsafe : ListenerOp.Safe (.addEventListener node type func calloc register) s) :
    (s.addEventListener node type func calloc register).Inv := by
  unfold Listeners.addEventListener
  split
  · exact hi
  · next hopen =>
    obtain ⟨⟨hclosed, hdocument⟩, hcalloc⟩ : (s.closed = false ∧ s.hasDocument = true) ∧ calloc = true := by
      simpa using hopen
    obtain ⟨hnew, hregister⟩ := hsafe hclosed hcalloc
    -- The record is registered exactly when there is no other of its type.
    have halready : (s.listeners.any fun scan => decide (scan.type = type) && scan.domRegistered) =
        s.listeners.any fun lis => decide (lis.type = type) := hi.any_registered type
    have hregistered : (!(s.listeners.any fun scan => decide (scan.type = type) && scan.domRegistered) && register) =
        !(s.listeners.any fun lis => decide (lis.type = type)) := by
      rw [halready]
      cases hany : s.listeners.any fun lis => decide (lis.type = type) with
      | true => rfl
      | false =>
        rw [hregister, Bool.not_false, Bool.and_true]
        intro lis hlis
        rw [← halready, any_eq_false] at hany
        exact Bool.not_eq_true _ ▸ hany lis hlis
    dsimp only
    rw [hregistered]
    have hcount (t : Nat) : (List.countP (registeredFor t) ({
        addr := s.nextAddr, node, type, func
        domRegistered := !(s.listeners.any fun lis => decide (lis.type = type)) } :: s.listeners)) =
        s.listeners.countP (registeredFor t) +
          if type = t ∧ (s.listeners.any fun lis => decide (lis.type = type)) = false then 1 else 0 := by
      rw [countP_cons]
      simp [registeredFor]
    refine { hi with
      addrs := ?_
      fresh := fun lis hlis => ?_
      distinct := ?_
      registered := fun t => ?_
      dom := fun t => ?_
      hasDocument := fun _ => hdocument
      current := fun d hd => ?_ }
    · rw [map_cons, nodup_cons]
      refine ⟨fun hmem => ?_, hi.addrs⟩
      obtain ⟨lis, hlis, haddr⟩ := mem_map.mp hmem
      exact Nat.lt_irrefl _ (haddr ▸ hi.fresh lis hlis)
    · obtain rfl | hlis := mem_cons.mp hlis
      · exact Nat.lt_succ_self _
      · exact Nat.lt_succ_of_lt (hi.fresh lis hlis)
    · rw [pairwise_cons]
      refine ⟨fun lis hlis hsame => ?_, hi.distinct⟩
      have hnot := hnew lis hlis
      rw [isFor_iff.mpr ⟨hsame.1.symm, hsame.2.1.symm, hsame.2.2.symm⟩] at hnot
      cases hnot
    · rw [hcount, hi.registered t, any_cons]
      by_cases ht : type = t
      · subst ht
        cases s.listeners.any fun lis => decide (lis.type = type) <;> simp
      · simp [ht]
    · rw [hcount, ← hi.dom t]
      by_cases ht : type = t
      · subst ht
        cases s.listeners.any fun lis => decide (lis.type = type) <;> simp
      · cases s.listeners.any fun lis => decide (lis.type = type) <;> simp [ht]
    · obtain ⟨before, lis, rest, hs, hlis, hahead⟩ := hi.current d hd
      exact ⟨_ :: before, lis, rest, congrArg _ hs, hlis, hahead⟩

/-! ## Removing a listener -/

theorem split_of_key (h : listeners.map Listener.key = (before ++ cur :: rest).map Listener.key) :
    ∃ before' cur' rest', listeners = before' ++ cur' :: rest' ∧ cur'.addr = cur.addr ∧
      rest'.map Listener.key = rest.map Listener.key := by
  rw [map_append, map_cons, map_eq_append_iff] at h
  obtain ⟨before', tail, rfl, -, htail⟩ := h
  obtain ⟨cur', rest', rfl, hcur, hrest⟩ := map_eq_cons_iff.mp htail
  refine ⟨before', cur', rest', rfl, ?_, hrest⟩
  show cur'.key.addr = cur.key.addr
  rw [hcur]

theorem any_type_of_key (h : listeners.map Listener.key = rest.map Listener.key) (type : Nat) :
    (listeners.any fun lis => decide (lis.type = type)) = rest.any fun lis => decide (lis.type = type) := by
  have hmap (l : List Listener) : (l.map Listener.key).any (fun lis => decide (lis.type = type)) =
      l.any fun lis => decide (lis.type = type) := by
    rw [any_map]
    rfl
  rw [← hmap, h, hmap]

theorem Inv.current_remove {after : List Listener} (hi : s.Inv) (hs : s.listeners = before ++ lis :: after)
    (hkey : listeners.map Listener.key = (before ++ after).map Listener.key)
    (hsafe : ∀ d, s.dispatch = some d → lis.addr ≠ d.lis) :
    ∀ d, s.noteGone lis = some d → ∃ before lis rest, listeners = before ++ lis :: rest ∧ lis.addr = d.lis ∧
      Ahead d rest := by
  intro d' hd'
  obtain ⟨d, hd, rfl⟩ := Option.map_eq_some_iff.mp hd'
  obtain ⟨front, cur, rest, hcur, hlis, hahead⟩ := hi.current d hd
  have hnotMem := (hi.addr_notMem hs)
  have hcurne : lis ≠ cur := by
    rintro rfl
    exact hsafe d hd hlis
  have hmem : lis ∈ front ++ cur :: rest := by
    rw [← hcur, hs]
    exact mem_append_right _ mem_cons_self
  have hbefore : lis ∉ before := fun h => hnotMem.1 (mem_map_of_mem h)
  have hafter : lis ∉ after := fun h => hnotMem.2 lis h rfl
  have hinj {x y : List Listener} (h : s.listeners = x ++ lis :: y) : before = x ∧ after = y := by
    rw [hs, append_cons_inj_of_notMem hbefore hafter] at h
    exact ⟨h.1, h.2.2⟩
  obtain hfront | hrest := mem_append.mp hmem
  · -- The dispatch has passed the record.
    obtain ⟨x, y, rfl⟩ := append_of_mem hfront
    obtain ⟨rfl, rfl⟩ := hinj (y := y ++ cur :: rest) (by rw [hcur, append_assoc]; rfl)
    rw [← append_assoc] at hkey
    obtain ⟨before', cur', rest', hsplit, hcur', hrest'⟩ := split_of_key hkey
    refine ⟨before', cur', rest', hsplit, ?_, ?_⟩
    · rw [hcur', hlis]
      split <;> rfl
    · apply Ahead.congr _ hrest'
      split
      · exact hahead
      · next hcalled =>
        apply hahead.pass hcalled
        intro z hz
        exact hnotMem.2 z (mem_append_right _ (mem_cons_of_mem _ hz))
  · obtain heq | hrest := mem_cons.mp hrest
    · exact absurd heq hcurne
    · -- The dispatch has not reached it.
      obtain ⟨x, y, rfl⟩ := append_of_mem hrest
      obtain ⟨rfl, rfl⟩ := hinj (x := front ++ cur :: x) (by rw [hcur, append_assoc]; rfl)
      rw [append_assoc, cons_append] at hkey
      obtain ⟨before', cur', rest', hsplit, hcur', hrest'⟩ := split_of_key hkey
      obtain ⟨hcalled, -⟩ := hahead.ahead lis (mem_append_right _ mem_cons_self)
      rw [if_neg hcalled]
      refine ⟨before', cur', rest', hsplit, hcur'.trans hlis, Ahead.congr (hahead.remove fun z hz => ?_) hrest'⟩
      obtain hz | hz := mem_append.mp hz
      · intro heq
        apply hnotMem.1
        rw [← heq]
        exact mem_map_of_mem (mem_append_right _ (mem_cons_of_mem _ hz))
      · exact hnotMem.2 z hz

theorem Inv.drop {after : List Listener} (hi : s.Inv) (hs : s.listeners = before ++ lis :: after)
    (hkey : listeners.map Listener.key = (before ++ after).map Listener.key) {dom : List Nat}
    (hsafe : ∀ d, s.dispatch = some d → lis.addr ≠ d.lis)
    (hregistered : ∀ t, listeners.countP (registeredFor t) =
      if ((before ++ after).any fun lis => decide (lis.type = t)) = true then 1 else 0)
    (hdom : ∀ t, dom.count t = listeners.countP (registeredFor t)) :
    Inv { s with dispatch := s.noteGone lis, listeners := listeners, dom := dom } := by
  have hsub : (before ++ after).Sublist s.listeners := by
    rw [hs]
    exact List.Sublist.append_left (sublist_cons_self _ _) _
  have haddrs : listeners.map Listener.addr = (before ++ after).map Listener.addr := by
    have hcomp : Listener.addr = Listener.addr ∘ Listener.key := rfl
    rw [hcomp, ← map_map, hkey, map_map]
  refine { hi with
    addrs := ?_
    fresh := fun x hx => ?_
    distinct := ?_
    registered := fun t => ?_
    dom := hdom
    hasDocument := fun hne => ?_
    current := hi.current_remove hs hkey hsafe }
  · rw [haddrs]
    exact hi.addrs.sublist (hsub.map _)
  · have hmem := mem_map_of_mem (f := Listener.addr) hx
    rw [haddrs] at hmem
    obtain ⟨y, hy, hyx⟩ := mem_map.mp hmem
    rw [← hyx]
    exact hi.fresh y (hsub.subset hy)
  · have hpair := hi.distinct.sublist hsub
    have hmap (l : List Listener) : l.Pairwise (fun x y => ¬ SameListener x y) ↔
        (l.map Listener.key).Pairwise fun x y => ¬ SameListener x y := by
      rw [pairwise_map]
      rfl
    rw [hmap, hkey, ← hmap]
    exact hpair
  · rw [any_type_of_key hkey]
    exact hregistered t
  · apply hi.hasDocument
    rintro hnil
    rw [hs] at hnil
    exact absurd hnil (append_ne_nil_of_right_ne_nil _ (cons_ne_nil _ _))

theorem countP_handOver (hnone : listeners.countP (registeredFor type) = 0)
    (hany : (listeners.any fun lis => decide (lis.type = type)) = true) (t : Nat) :
    (handOver type listeners).countP (registeredFor t) =
      if type = t then 1 else listeners.countP (registeredFor t) := by
  induction listeners with
  | nil => cases hany
  | cons scan rest ih =>
    rw [countP_cons] at hnone ⊢
    obtain ⟨hrest, hscan⟩ := Nat.add_eq_zero_iff.mp hnone
    unfold handOver
    by_cases hscanType : scan.type = type
    · subst hscanType
      rw [if_pos rfl, countP_cons]
      by_cases ht : scan.type = t
      · subst ht
        rw [if_pos rfl, hrest]
        simp [registeredFor]
      · rw [if_neg ht]
        simp [registeredFor, ht]
    · rw [any_cons, decide_eq_false hscanType, Bool.false_or] at hany
      rw [if_neg hscanType, countP_cons, ih hrest hany]
      by_cases ht : type = t
      · subst ht
        rw [if_pos rfl, if_pos rfl, hscan]
      · rw [if_neg ht, if_neg ht]

theorem Inv.registered_split {after : List Listener} (hi : s.Inv) (hs : s.listeners = before ++ lis :: after)
    (t : Nat) : (before ++ after).countP (registeredFor t) + (if registeredFor t lis = true then 1 else 0) =
      if lis.type = t ∨ ((before ++ after).any fun x => decide (x.type = t)) = true then 1 else 0 := by
  have hcount := hi.registered t
  have hperm : (before ++ lis :: after).Perm (lis :: (before ++ after)) := perm_middle
  rw [hs, hperm.countP_eq, countP_cons, hperm.any_eq, any_cons] at hcount
  rw [hcount]
  simp only [Bool.or_eq_true, decide_eq_true_iff]

theorem Inv.dom_split {after : List Listener} (hi : s.Inv) (hs : s.listeners = before ++ lis :: after) (t : Nat) :
    s.dom.count t = (before ++ after).countP (registeredFor t) + if registeredFor t lis = true then 1 else 0 := by
  have hperm : (before ++ lis :: after).Perm (lis :: (before ++ after)) := perm_middle
  rw [hi.dom t, hs, hperm.countP_eq, countP_cons]

theorem Inv.removeEventListener (hi : s.Inv) (hsafe : ListenerOp.Safe (.removeEventListener node type func) s) :
    (s.removeEventListener node type func).Inv := by
  unfold Listeners.removeEventListener
  cases hfind : s.listeners.find? (isFor node type func) with
  | none => exact hi
  | some lis =>
    obtain ⟨hisFor, before, after, hs, hbefore⟩ := List.find?_eq_some_iff_append.mp hfind
    obtain ⟨-, rfl, -⟩ := isFor_iff.mp hisFor
    have hrest : s.listeners.eraseP (isFor node lis.type func) = before ++ after := by
      rw [hs, eraseP_append_right _ fun x hx => by simpa using hbefore x hx, eraseP_cons_of_pos hisFor]
    have hcurrent (d : Dispatch) (hd : s.dispatch = some d) : lis.addr ≠ d.lis := hsafe d lis hd hfind
    have hsplit := hi.registered_split hs
    have hdom := hi.dom_split hs
    dsimp only
    rw [hrest]
    split
    · next hlis =>
      -- It was the registered record of its type, and no other is.
      have hreg (t : Nat) : registeredFor t lis = decide (lis.type = t) := by
        unfold registeredFor
        rw [hlis, Bool.and_true]
      simp only [hreg, decide_eq_true_iff] at hsplit hdom
      have hnone : (before ++ after).countP (registeredFor lis.type) = 0 := by
        have h := hsplit lis.type
        rw [if_pos rfl, if_pos (.inl rfl)] at h
        exact Nat.succ.inj h
      split
      · next hany =>
        have hcount := countP_handOver hnone hany
        apply hi.drop hs (map_key_handOver _ _) hcurrent
        · intro t
          rw [hcount]
          by_cases ht : lis.type = t
          · subst ht
            rw [if_pos rfl, if_pos hany]
          · have h := hsplit t
            rw [if_neg ht, Nat.add_zero] at h
            rw [if_neg ht, h]
            simp only [ht, false_or]
        · intro t
          rw [hdom, hcount]
          by_cases ht : lis.type = t
          · subst ht
            rw [if_pos rfl, if_pos rfl, hnone]
          · rw [if_neg ht, if_neg ht, Nat.add_zero]
      · next hany =>
        have hdocument : s.hasDocument = true := by
          apply hi.hasDocument
          rw [hs]
          exact append_ne_nil_of_right_ne_nil _ (cons_ne_nil _ _)
        rw [if_pos hdocument]
        apply hi.drop hs rfl hcurrent
        · intro t
          by_cases ht : lis.type = t
          · subst ht
            rw [hnone, if_neg hany]
          · have h := hsplit t
            rw [if_neg ht, Nat.add_zero] at h
            rw [h]
            simp only [ht, false_or]
        · intro t
          by_cases ht : lis.type = t
          · subst ht
            rw [count_erase_self, hdom, if_pos rfl, hnone]
          · rw [count_erase_of_ne (Ne.symm ht), hdom, if_neg ht, Nat.add_zero]
    · next hlis =>
      have hreg (t : Nat) : registeredFor t lis = false := by
        unfold registeredFor
        rw [Bool.eq_false_iff.mpr hlis, Bool.and_false]
      simp only [hreg, Bool.false_eq_true, if_false, Nat.add_zero] at hsplit hdom
      apply hi.drop hs rfl hcurrent
      · intro t
        rw [hsplit]
        by_cases ht : lis.type = t
        · subst ht
          -- Another record of the type is the registered one.
          have hone := hsplit lis.type
          rw [if_pos (.inl rfl)] at hone
          obtain ⟨x, hx, hregx⟩ := countP_pos_iff.mp (hone ▸ Nat.one_pos)
          rw [if_pos (.inl rfl), if_pos]
          rw [any_eq_true]
          unfold registeredFor at hregx
          exact ⟨x, hx, (Bool.and_eq_true_iff.mp hregx).1⟩
        · simp only [ht, false_or]
      · exact hdom

/-! ## The end of the thread -/

theorem count_foldl_erase (listeners : List Listener) (dom : List Nat) (type : Nat) :
    (listeners.foldl (fun dom lis => if (lis.domRegistered && true) = true then dom.erase lis.type else dom)
      dom).count type = dom.count type - listeners.countP (registeredFor type) := by
  induction listeners generalizing dom with
  | nil => rfl
  | cons lis rest ih =>
    rw [foldl_cons, ih, countP_cons]
    cases hlis : lis.domRegistered with
    | false => simp [registeredFor, hlis]
    | true =>
      by_cases ht : lis.type = type
      · subst ht
        simp only [registeredFor, hlis, Bool.and_true, if_true, count_erase_self, decide_true]
        omega
      · simp [registeredFor, ht, count_erase_of_ne (Ne.symm ht)]

theorem Inv.teardown (hi : s.Inv) (hd : s.dispatch = none) : s.teardown.Inv where
  addrs := nodup_nil
  fresh _ h := nomatch h
  distinct := List.Pairwise.nil
  registered _ := rfl
  dom type := by
    unfold Listeners.teardown
    by_cases hnil : s.listeners = []
    · have hcount := hi.dom type
      rw [hnil] at hcount ⊢
      exact hcount
    · simp only [hi.hasDocument hnil]
      rw [count_foldl_erase, hi.dom, Nat.sub_self]
      rfl
  hasDocument h := absurd rfl h
  exact := hi.exact
  late := hi.late
  freedReads := hi.freedReads
  current d h := by
    rw [show s.teardown.dispatch = s.dispatch from rfl, hd] at h
    cases h

/-! ## Runs -/

theorem Inv.exec {op : ListenerOp} {s' : Listeners} (hi : s.Inv) (hsafe : op.Safe s) (h : op.exec s = some s') :
    s'.Inv := by
  cases op with
  | event type path =>
    obtain ⟨-, h⟩ := Option.ite_none_right_eq_some.mp h
    cases h
    exact hi.event type path
  | callReturns =>
    obtain ⟨d, hd, rfl⟩ := Option.map_eq_some_iff.mp h
    exact hi.callReturns hd hsafe
  | addEventListener node type func calloc register =>
    obtain ⟨-, h⟩ := Option.ite_none_left_eq_some.mp h
    cases h
    exact hi.addEventListener hsafe
  | removeEventListener node type func =>
    obtain ⟨-, h⟩ := Option.ite_none_left_eq_some.mp h
    cases h
    exact hi.removeEventListener hsafe
  | close =>
    obtain ⟨-, h⟩ := Option.ite_none_left_eq_some.mp h
    cases h
    exact { hi with }
  | teardown =>
    obtain ⟨hd, h⟩ := Option.ite_none_right_eq_some.mp h
    cases h
    apply hi.teardown
    rw [Bool.and_eq_true, Option.isNone_iff_eq_none] at hd
    exact hd.1

end Listeners

/-- In a run in which no listener removes itself in its call, a call that closes the thread is the last of its
dispatch, and no listener is added twice, each dispatch calls what it has to. -/
theorem dispatched_of_run {ops : List ListenerOp} {s : Listeners} (hr : listenerSystem.Run ListenerOp.Safe ops s) :
    Dispatched s := by
  apply Listeners.Inv.dispatched
  apply hr.invariant
  · rintro s ⟨hasDocument, rfl⟩
    exact Listeners.inv_empty hasDocument
  · intro op s s' hsafe hexec hi
    exact hi.exec hsafe hexec

/-- The listener that was added last removes the other one, which had the registration, before its turn. -/
theorem removal_dispatched : ∃ s, listenerSystem.Run ListenerOp.Safe
      [.addEventListener 0 7 0 true true, .addEventListener 0 7 1 true true, .event 7 [3, 0],
        .removeEventListener 0 7 0, .callReturns] s ∧
    Dispatched s ∧ s.finished.map Dispatch.called = [[1]] ∧ s.listeners.map Listener.domRegistered = [true] := by
  have hrun : listenerSystem.Run ListenerOp.Safe [] (.empty true) := .start ⟨true, rfl⟩
  have hrun := hrun.step (.addEventListener 0 7 0 true true) (fun _ _ => by decide) rfl
  have hrun := hrun.step (.addEventListener 0 7 1 true true) (fun _ _ => by decide) rfl
  have hrun := hrun.step (.event 7 [3, 0]) trivial rfl
  have hrun := hrun.step (.removeEventListener 0 7 0) (by
    intro d lis hd hlis
    cases hd
    cases hlis
    decide) rfl
  have hrun := hrun.step .callReturns (fun _ _ h => Bool.noConfusion h) rfl
  exact ⟨_, hrun, dispatched_of_run hrun, rfl, rfl⟩

/-- A listener that removes itself in its call: the walk goes on from its record, which is freed. -/
theorem not_dispatched : ¬ ∀ ops s, listenerSystem.AnyRun ops s → Dispatched s := by
  intro h
  have hrun : listenerSystem.AnyRun [] (.empty true) := .start ⟨true, rfl⟩
  have hrun := hrun.step (.addEventListener 0 7 0 true true) trivial rfl
  have hrun := hrun.step (.event 7 [0]) trivial rfl
  have hrun := hrun.step (.removeEventListener 0 7 0) trivial rfl
  have hrun := hrun.step .callReturns trivial rfl
  exact absurd (h _ _ hrun).freedReads (by decide)

end Nami.Script
