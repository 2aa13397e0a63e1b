import Nami.Hashmap.Verify.Invariant

/-!
# The hash map is a finite map

What a map answers after any calls is decided by the calls alone: the value of the last successful
insertion of a key that no removal followed.
-/

namespace Nami.Hashmap

open List
open Function (update update_self update_of_ne)
open PtrChain

variable {K V ω : Type} {P : Parameters K V ω} {m m' : HashMap K V} {a : Addr} {chains : Nat → List Addr}

/-! ## One call -/

section Calls

variable {k key key' newKey : K} {v v' newValue : V} {h h' : UInt32}

theorem maps_update_some (hP : P.Lawful) (hcontent : m'.content = update m.content a (some (newKey, newValue, h')))
    (hkey : P.keyEq key newKey = true)
    (hother : ∀ b k v h, m.content b = some (k, v, h) → P.keyEq key k = true → b = a)
    (hold : ∀ k v h, m.content a = some (k, v, h) → P.keyEq key k = true) :
    m'.Maps P key' v ↔ if P.keyEq key' key then newValue = v else m.Maps P key' v := by
  have hcongr : ∀ k, P.keyEq key k = true → (P.keyEq key' k = true ↔ P.keyEq key' key = true) :=
    fun k hk => ⟨fun h => hP.trans _ _ _ h (hP.symm _ _ hk), fun h => hP.trans _ _ _ h hk⟩
  unfold HashMap.Maps
  rw [hcontent]
  split
  · next heq =>
    constructor
    · rintro ⟨b, k, h, hb, hk⟩
      by_cases hba : b = a
      · subst hba
        rw [update_self] at hb
        simp only [Option.some.injEq, Prod.mk.injEq] at hb
        exact hb.2.1
      · rw [update_of_ne hba] at hb
        exact absurd (hother b k v h hb (hP.trans _ _ _ (hP.symm _ _ heq) hk)) hba
    · rintro rfl
      exact ⟨a, newKey, h', update_self _ _ _, (hcongr newKey hkey).2 heq⟩
  · next heq =>
    constructor
    · rintro ⟨b, k, h, hb, hk⟩
      by_cases hba : b = a
      · subst hba
        rw [update_self] at hb
        simp only [Option.some.injEq, Prod.mk.injEq] at hb
        obtain ⟨rfl, -, -⟩ := hb
        exact absurd ((hcongr _ hkey).1 hk) heq
      · rw [update_of_ne hba] at hb
        exact ⟨b, k, h, hb, hk⟩
    · rintro ⟨b, k, h, hb, hk⟩
      have hba : b ≠ a := by
        rintro rfl
        exact heq ((hcongr k (hold k v h hb)).1 hk)
      exact ⟨b, k, h, by rw [update_of_ne hba, hb], hk⟩

theorem maps_update_none (hP : P.Lawful) (hcontent : m'.content = update m.content a none)
    (hc : m.content a = some (k, v', h)) (hkey : P.keyEq key k = true)
    (hother : ∀ b k v h, m.content b = some (k, v, h) → P.keyEq key k = true → b = a) :
    m'.Maps P key' v ↔ P.keyEq key' key = false ∧ m.Maps P key' v := by
  unfold HashMap.Maps
  rw [hcontent]
  constructor
  · rintro ⟨b, k', h', hb, hk⟩
    have hba : b ≠ a := by
      rintro rfl
      rw [update_self] at hb
      cases hb
    rw [update_of_ne hba] at hb
    refine ⟨?_, b, k', h', hb, hk⟩
    by_contra heq
    rw [Bool.not_eq_false] at heq
    exact hba (hother b k' v h' hb (hP.trans _ _ _ (hP.symm _ _ heq) hk))
  · rintro ⟨heq, b, k', h', hb, hk⟩
    have hba : b ≠ a := by
      rintro rfl
      rw [hc] at hb
      simp only [Option.some.injEq, Prod.mk.injEq] at hb
      obtain ⟨rfl, -, -⟩ := hb
      rw [hP.trans _ _ _ hk (hP.symm _ _ hkey)] at heq
      cases heq
    exact ⟨b, k', h', by rw [update_of_ne hba, hb], hk⟩

end Calls

/-! ## Runs -/

/-- The value of the last successful insertion of a key, if no removal followed it. The calls are listed
from the last one on. -/
def lastInsert (P : Parameters K V ω) (key : K) : List (Call K V ω) → Option V
  | [] => none
  | .insert _ _ k (some v) :: calls => if P.keyEq key k then some v else lastInsert P key calls
  | .remove k _ :: calls => if P.keyEq key k then none else lastInsert P key calls
  | _ :: calls => lastInsert P key calls

/-- An insertion that replaces an entry gets the key object that is there already from `key_clone`. -/
def KeepsKeyObject (P : Parameters K V ω) : Call K V ω → HashMap K V → Prop
  | .insert w _ key _, m => ∀ a e newKey, m.entries a = some e → P.keyEq key e.key = true →
      P.keyClone w key = some newKey → P.valueAlloc w e.key ≠ none → newKey = e.key
  | _, _ => True

/-- The map behaves as the finite map that the calls describe. -/
structure FiniteMap (P : Parameters K V ω) (calls : List (Call K V ω)) (m : HashMap K V) : Prop where
  lookup : ∀ key fuel, m.entryCount < fuel →
    hashmapLookup P fuel m key = some (lastInsert P key calls.reverse)
  insert : ∀ w mem key fuel, m.entryCount < fuel → ∃ r, hashmapInsert P fuel m w mem key = some r
  remove : ∀ key fuel, m.entryCount < fuel → ∃ r, hashmapRemove P fuel m key = some r
  insert_failed : ∀ w mem key fuel m', (∀ a ∈ mem, m.entries a = none) →
    hashmapInsert P fuel m w mem key = some (m', none) → m' = m
  iterate : ∃ addrs : List Addr, addrs.Nodup ∧ (∀ a, a ∈ addrs ↔ ∃ e, m.entries a = some e) ∧
    addrs.length = m.entryCount ∧ ∀ cb fuel, m.entryCount < fuel →
      hashmapIterate fuel m cb = some (callbacks cb (m.pairs addrs))
  prevptr : ∀ a e, m.entries a = some e → m.mem.get e.prevptr = some a

/-- Each stored value was allocated for the key object that is stored with it. -/
def ValuesOwned (P : Parameters K V ω) (m : HashMap K V) : Prop :=
  ∀ a e, m.entries a = some e → ∃ w, P.valueAlloc w e.key = some e.value

/-- What is kept along a run. -/
def Tracks (P : Parameters K V ω) (calls : List (Call K V ω)) (m : HashMap K V) : Prop :=
  (∃ chains, Inv P m chains) ∧ ∀ key v, m.Maps P key v ↔ lastInsert P key calls.reverse = some v

theorem tracks_create : Tracks P [] (hashmapCreate K V) := by
  have hempty : ∀ n, (List.range n).flatMap (fun _ => ([] : List Addr)) = [] := fun n => by simp
  refine ⟨⟨fun _ => [], ⟨?_, rfl, ?_, ?_, ?_, ?_, ?_⟩⟩, ?_⟩
  · exact ⟨fun _ => rfl, fun _ => nodup_nil, fun _ _ _ a ha => absurd ha not_mem_nil⟩
  · exact fun _ a ha => absurd ha not_mem_nil
  · exact fun a => iff_of_false (by simp) (by simp [hashmapCreate])
  · exact fun _ a ha => absurd ha not_mem_nil
  · intro a b k v h k' v' h' ha
    cases ha
  · rw [hempty]
    rfl
  · intro key v
    refine iff_of_false ?_ (by simp [lastInsert])
    rintro ⟨a, k, h, hc, -⟩
    cases hc

theorem Tracks.step (hP : P.Lawful) {calls : List (Call K V ω)} {call : Call K V ω}
    (ht : Tracks P calls m) (hs : Call.Step P call m m') : Tracks P (calls ++ [call]) m' := by
  obtain ⟨⟨chains, hI⟩, hmaps⟩ := ht
  rw [Tracks, reverse_append, reverse_singleton, singleton_append]
  have hkept : ∀ {call : Call K V ω}, (∀ key calls, lastInsert P key (call :: calls) =
      lastInsert P key calls) → (∃ chains, Inv P m chains) ∧
      ∀ key v, m.Maps P key v ↔ lastInsert P key (call :: calls.reverse) = some v := fun h =>
    ⟨⟨chains, hI⟩, fun key v => by rw [h, hmaps]⟩
  cases hs with
  | @insert fuel _ _ w mem key result hmem hs =>
    rcases hashmapInsert_cases hP hI hmem hs with ⟨rfl, rfl⟩ |
      ⟨a, k, v, h, newKey, newValue, hc, heq, hclone, -, rfl, rfl⟩ |
      ⟨a, newKey, newValue, ha, hnone, hclone, -, rfl, rfl⟩
    · exact hkept fun _ _ => rfl
    · have hnew := hP.clone _ _ _ hclone
      refine ⟨⟨chains, hI.replace hP hc (hP.trans _ _ _ (hP.symm _ _ heq) hnew)⟩, fun key' v' => ?_⟩
      have hother : ∀ b k' v h', m.content b = some (k', v, h') → P.keyEq key k' = true → b = a :=
        fun b k' _ _ hb hk => hI.distinct b a _ _ _ _ _ _ hb hc (hP.trans _ _ _ (hP.symm _ _ hk) heq)
      rw [maps_update_some hP (content_replace hc) hnew hother, lastInsert, hmaps]
      · split <;> simp
      · intro k' v h' hc'
        rw [hc] at hc'
        simp only [Option.some.injEq, Prod.mk.injEq] at hc'
        rw [← hc'.1]
        exact heq
    · have hnew := hP.clone _ _ _ hclone
      have hnone' : ∀ b k v h, m.content b = some (k, v, h) → P.keyEq newKey k = false := by
        intro b k v h hb
        by_contra hk
        rw [Bool.not_eq_false] at hk
        have hne := hnone b k v h hb
        rw [hP.trans _ _ _ hnew hk] at hne
        cases hne
      have hcontent := @content_linkEntry _ _ m a (m.bucketOf (P.keyHash key)) newKey newValue (P.keyHash key)
      have habsent : m.content a = none := by simp [HashMap.content, ha]
      have hlink : Inv P (linkEntry m a (m.bucketOf (P.keyHash newKey)) newKey newValue
          (P.keyHash newKey)) _ := hI.link hP ha hnone' rfl
      rw [← hP.hash _ _ hnew] at hlink
      refine ⟨⟨_, hlink⟩, fun key' v' => ?_⟩
      rw [maps_update_some hP hcontent hnew, lastInsert, hmaps]
      · split <;> simp
      · intro b k v h hb hk
        rw [hnone b k v h hb] at hk
        cases hk
      · intro k v h hc
        rw [habsent] at hc
        cases hc
  | lookup hs => exact hkept fun _ _ => rfl
  | @remove fuel _ _ key result hs =>
    rcases hashmapRemove_cases hP hI hs with ⟨rfl, hnone⟩ | ⟨i, a, e, hi, he, heq, rfl⟩
    · refine ⟨⟨chains, hI⟩, fun key' v' => ?_⟩
      rw [lastInsert]
      split
      · next heq =>
        refine iff_of_false ?_ (by simp)
        rintro ⟨b, k, h, hb, hk⟩
        have hne := hnone b k v' h hb
        rw [hP.trans _ _ _ (hP.symm _ _ heq) hk] at hne
        cases hne
      · exact hmaps key' v'
    · have hc : m.content a = some (e.key, e.value, e.keyHash) := by simp [HashMap.content, he]
      have hother : ∀ b k' v h', m.content b = some (k', v, h') → P.keyEq key k' = true → b = a :=
        fun b k' _ _ hb hk => hI.distinct b a _ _ _ _ _ _ hb hc (hP.trans _ _ _ (hP.symm _ _ hk) heq)
      refine ⟨⟨_, hI.unlink he hi⟩, fun key' v' => ?_⟩
      rw [maps_update_none hP content_unlinkEntry hc heq hother, lastInsert, hmaps]
      split
      · next h => simp [h]
      · next h => simp [h]
  | iterate hs => exact hkept fun _ _ => rfl

theorem Inv.insert_returns (hI : Inv P m chains) (w : ω) (mem : Option Addr) (key : K) {fuel : Nat}
    (hfuel : m.entryCount < fuel) : ∃ r, hashmapInsert P fuel m w mem key = some r := by
  unfold hashmapInsert
  simp only [(hI.findEntry_eq key).2 hfuel]
  cases hf : (chains (m.bucketOf (P.keyHash key))).find? (m.isMatch P (P.keyHash key) key) with
  | some a =>
    obtain ⟨e, he⟩ := (hI.present a).1 ⟨_, mem_of_find?_eq_some hf⟩
    simp only [he, Option.map_some]
    exact ⟨_, rfl⟩
  | none =>
    cases mem with
    | none => exact ⟨_, rfl⟩
    | some a =>
      cases hclone : P.keyClone w key with
      | none => exact ⟨_, rfl⟩
      | some newKey => cases halloc : P.valueAlloc w newKey <;> simp [halloc]

theorem Inv.remove_returns (hI : Inv P m chains) (key : K) {fuel : Nat}
    (hfuel : m.entryCount < fuel) : ∃ r, hashmapRemove P fuel m key = some r := by
  unfold hashmapRemove
  simp only [(hI.findEntry_eq key).2 hfuel]
  cases hf : (chains (m.bucketOf (P.keyHash key))).find? (m.isMatch P (P.keyHash key) key) with
  | some a =>
    obtain ⟨e, he⟩ := (hI.present a).1 ⟨_, mem_of_find?_eq_some hf⟩
    simp only [he, Option.map_some]
    exact ⟨_, rfl⟩
  | none => exact ⟨_, rfl⟩

theorem Tracks.finiteMap (hP : P.Lawful) {calls : List (Call K V ω)} (ht : Tracks P calls m) : FiniteMap P calls m := by
  obtain ⟨⟨chains, hI⟩, hmaps⟩ := ht
  refine ⟨fun key fuel hfuel => ?_, fun w mem key fuel hfuel => ?_, fun key fuel hfuel => ?_,
    fun w mem key fuel m' hmem hs => ?_,
    ⟨(List.range m.bucketCount.toNat).flatMap chains, nodup_flatMap hI.linked _, fun a => ?_,
      hI.count.symm, fun cb fuel hfuel => hashmapIterate_eq hI hfuel cb⟩, fun a e he => ?_⟩
  · obtain ⟨r, hr, hiff⟩ := hashmapLookup_eq hP hI hfuel key
    rw [hr, Option.some.injEq]
    refine Option.ext fun v => ?_
    rw [← hiff v, hmaps]
  · exact hI.insert_returns w mem key hfuel
  · exact hI.remove_returns key hfuel
  · rcases hashmapInsert_cases hP hI hmem hs with ⟨-, h⟩ | ⟨_, _, _, _, _, _, _, _, _, _, h, _⟩ |
      ⟨_, _, _, _, _, _, _, h, _⟩
    · exact h
    · cases h
    · cases h
  · rw [← hI.present, mem_flatMap]
    constructor
    · rintro ⟨i, -, hi⟩
      exact ⟨i, hi⟩
    · rintro ⟨i, hi⟩
      exact ⟨i, mem_range.2 (hI.bound i a hi), hi⟩
  · obtain ⟨i, hi⟩ := (hI.present a).2 ⟨e, he⟩
    obtain ⟨q, hq, hget⟩ := hI.linked.get_back hi
    have hback : m.mem.back a = some e.prevptr := by simp [HashMap.mem, he]
    rw [Option.some.inj (hback.symm.trans hq)]
    exact hget

theorem valuesOwned_iff : ValuesOwned P m ↔
    ∀ a k v h, m.content a = some (k, v, h) → ∃ w, P.valueAlloc w k = some v := by
  constructor
  · intro hv a k v h hc
    obtain ⟨e, he, rfl, rfl, -⟩ := content_eq_some.1 hc
    exact hv a e he
  · intro hv a e he
    exact hv a e.key e.value e.keyHash (content_eq_some.2 ⟨e, he, rfl, rfl, rfl⟩)

theorem valuesOwned_update {c : Option (K × V × UInt32)}
    (hcontent : m'.content = update m.content a c) (hv : ValuesOwned P m)
    (hc : ∀ k v h, c = some (k, v, h) → ∃ w, P.valueAlloc w k = some v) : ValuesOwned P m' := by
  rw [valuesOwned_iff] at hv ⊢
  intro b k v h hb
  rw [hcontent] at hb
  by_cases hba : b = a
  · subst hba
    rw [update_self] at hb
    exact hc k v h hb
  · rw [update_of_ne hba] at hb
    exact hv b k v h hb

theorem ValuesOwned.step (hP : P.Lawful) {call : Call K V ω} (hI : Inv P m chains)
    (hv : ValuesOwned P m) (hg : KeepsKeyObject P call m) (hs : Call.Step P call m m') :
    ValuesOwned P m' := by
  cases hs with
  | @insert fuel _ _ w mem key result hmem hs =>
    rcases hashmapInsert_cases hP hI hmem hs with ⟨rfl, rfl⟩ |
      ⟨a, k, v, h, newKey, newValue, hc, heq, hclone, halloc, rfl, rfl⟩ |
      ⟨a, newKey, newValue, -, -, -, halloc, rfl, rfl⟩
    · exact hv
    · refine valuesOwned_update (content_replace hc) hv fun k' v' h' hk' => ?_
      simp only [Option.some.injEq, Prod.mk.injEq] at hk'
      obtain ⟨rfl, rfl, -⟩ := hk'
      obtain ⟨e, he, rfl, rfl, -⟩ := content_eq_some.1 hc
      rw [hg a e newKey he heq hclone (by simp [halloc])]
      exact ⟨w, halloc⟩
    · refine valuesOwned_update content_linkEntry hv fun k' v' h' hk' => ?_
      simp only [Option.some.injEq, Prod.mk.injEq] at hk'
      obtain ⟨rfl, rfl, -⟩ := hk'
      exact ⟨w, halloc⟩
  | lookup hs => exact hv
  | remove hs =>
    rcases hashmapRemove_cases hP hI hs with ⟨rfl, -⟩ | ⟨i, a, e, -, -, -, rfl⟩
    · exact hv
    · exact valuesOwned_update content_unlinkEntry hv fun k v h hk => (by cases hk)
  | iterate hs => exact hv

/-- After any calls the map is the finite map of the calls. If moreover no insertion has put another
key object in the place of an equal one, each value was allocated for the key object it is stored with. -/
theorem hashmap_refines (hP : P.Lawful) (calls : List (Call K V ω)) (m : HashMap K V) :
    ((hashmapSystem P).AnyRun calls m → FiniteMap P calls m) ∧
      ((hashmapSystem P).Run (KeepsKeyObject P) calls m → ValuesOwned P m) := by
  refine ⟨fun hr => ?_, fun hr => ?_⟩
  · refine Tracks.finiteMap hP (hr.traceInvariant (I := Tracks P) (fun m hm => ?_) ?_)
    · rw [show m = hashmapCreate K V from hm]
      exact tracks_create
    · exact fun calls call m m' _ hs ht => ht.step hP hs
  · refine (hr.traceInvariant (I := fun calls m => Tracks P calls m ∧ ValuesOwned P m)
      (fun m hm => ?_) ?_).2
    · rw [show m = hashmapCreate K V from hm]
      exact ⟨tracks_create, fun a e he => by cases he⟩
    · rintro calls call m m' hg hs ⟨ht, hv⟩
      obtain ⟨chains, hI⟩ := ht.1
      exact ⟨ht.step hP hs, hv.step hP hI hg hs⟩

/-! ## One key, inserted twice -/

/-- Keys are objects, with a content and an identity; a value knows the object it was allocated for. -/
def sampleParameters : Parameters (Nat × Nat) (Nat × Nat) Nat where
  keyClone w k := some (k.1, w)
  keyHash _ := 0
  keyEq k k' := k.1 == k'.1
  valueAlloc _ k := some k

theorem sampleParameters_lawful : sampleParameters.Lawful where
  refl k := beq_self_eq_true k.1
  symm k k' h := by
    rw [sampleParameters, beq_iff_eq] at *
    exact h.symm
  trans k k' k'' h h' := by
    rw [sampleParameters, beq_iff_eq] at *
    exact h.trans h'
  hash _ _ _ := rfl
  clone w k k' h := by
    cases h
    exact beq_self_eq_true k.1

/-- The map after the first insertion. -/
def sampleMap : HashMap (Nat × Nat) (Nat × Nat) :=
  linkEntry (hashmapCreate _ _) 100 0 (7, 1) (7, 1) 0

theorem sampleMap_step : Call.Step sampleParameters (.insert 1 (some 100) (7, 0) (some (7, 1)))
    (hashmapCreate _ _) sampleMap :=
  have h : hashmapInsert sampleParameters 1 (hashmapCreate _ _) 1 (some 100) (7, 0) =
    some (sampleMap, some (7, 1)) := rfl
  .insert (fun _ _ => rfl) h

theorem hashmap_refines_one :
    FiniteMap sampleParameters [.insert 1 (some 100) (7, 0) (some (7, 1))] sampleMap ∧
      ValuesOwned sampleParameters sampleMap :=
  have hguard : KeepsKeyObject sampleParameters (.insert 1 (some 100) (7, 0) (some (7, 1)))
      (hashmapCreate _ _) := fun a e newKey he => by cases he
  ⟨(hashmap_refines sampleParameters_lawful [.insert 1 (some 100) (7, 0) (some (7, 1))] sampleMap).1
      (.snoc (.start rfl) trivial sampleMap_step),
    (hashmap_refines sampleParameters_lawful [.insert 1 (some 100) (7, 0) (some (7, 1))] sampleMap).2
      (.snoc (.start rfl) hguard sampleMap_step)⟩

/-- The second insertion stores a value that was allocated for the key object it replaces. -/
theorem hashmap_value_not_owned :
    ∃ (calls : List (Call (Nat × Nat) (Nat × Nat) Nat)) (m : HashMap (Nat × Nat) (Nat × Nat)),
      (hashmapSystem sampleParameters).AnyRun calls m ∧ ¬ ValuesOwned sampleParameters m := by
  have hinsert : hashmapInsert sampleParameters 1 sampleMap 2 (some 101) (7, 0) =
      some (sampleMap.replace 100 (7, 2) (7, 1), some (7, 1)) := rfl
  have hunused : ∀ a ∈ some 101, sampleMap.entries a = none := by
    rintro a ⟨⟩
    rfl
  have hsecond : Call.Step sampleParameters (.insert 2 (some 101) (7, 0) (some (7, 1))) sampleMap
      (sampleMap.replace 100 (7, 2) (7, 1)) := .insert hunused hinsert
  refine ⟨_, _, .snoc (.snoc (.start rfl) trivial sampleMap_step) trivial hsecond, ?_⟩
  intro hv
  obtain ⟨w, hw⟩ := hv 100 ⟨.root 0, none, (7, 2), (7, 1), 0⟩ rfl
  have hne : (some (7, 2) : Option (Nat × Nat)) = some (7, 1) := hw
  exact absurd hne (by decide)

end Nami.Hashmap
