import Nami.Hashmap.Basic

/-!
# The memory of the hash map

The pointers of the entries and what the entries hold are looked at apart: an insertion pushes a node
to a pointer chain and a removal unlinks one, and both change the contents of one entry.
-/

namespace Nami.Hashmap

open PtrChain

variable {K V ω : Type} {P : Parameters K V ω}

namespace HashMap

/-- The pointers of a map. -/
def mem (m : HashMap K V) : PtrMem Nat Addr where
  get
    | .root i => m.buckets i
    | .next a => (m.entries a).bind (·.next)
  back a := (m.entries a).map (·.prevptr)

/-- What the entries hold: key, value and hash. -/
def content (m : HashMap K V) (a : Addr) : Option (K × V × UInt32) :=
  (m.entries a).map fun e => (e.key, e.value, e.keyHash)

end HashMap

variable {m m' : HashMap K V} {a b : Addr} {e : Entry K V} {i : Nat} {key : K} {value : V}
  {keyHash : UInt32}

/-! ## Links -/

/-- A pointer can be written: the entry it is in is there. -/
def HashMap.Present (m : HashMap K V) : Link Nat Addr → Prop
  | .root _ => True
  | .next a => ∃ e, m.entries a = some e

theorem present_root (m : HashMap K V) (i : Nat) : m.Present (.root i) := trivial

theorem mem_store {p : Link Nat Addr} (hp : m.Present p) (q : Option Addr) :
    (m.store p q).mem = { m.mem with get := Function.update m.mem.get p q } := by
  cases p with
  | root i =>
    refine PtrMem.ext (fun p => ?_) fun c => rfl
    cases p with
    | root j => by_cases hj : j = i <;> simp [HashMap.store, HashMap.mem, Function.update_apply, hj]
    | next c => simp [HashMap.store, HashMap.mem, Function.update_apply]
  | next a =>
    obtain ⟨e, he⟩ := hp
    refine PtrMem.ext (fun p => ?_) fun c => ?_
    · cases p with
      | root j => simp [HashMap.store, HashMap.modify, HashMap.mem, Function.update_apply]
      | next c =>
        by_cases hc : c = a <;>
          simp [HashMap.store, HashMap.modify, HashMap.mem, Function.update_apply, hc, he]
    · by_cases hc : c = a <;>
        simp [HashMap.store, HashMap.modify, HashMap.mem, Function.update_apply, hc, he]

theorem mem_modify_prevptr {e : Entry K V} (he : m.entries a = some e) (p : Link Nat Addr) :
    (m.modify a fun e => { e with prevptr := p }).mem =
      { m.mem with back := Function.update m.mem.back a (some p) } := by
  refine PtrMem.ext (fun p => ?_) fun c => ?_
  · cases p with
    | root j => rfl
    | next c =>
      by_cases hc : c = a <;> simp [HashMap.modify, HashMap.mem, Function.update_apply, hc, he]
  · by_cases hc : c = a <;> simp [HashMap.modify, HashMap.mem, Function.update_apply, hc, he]

theorem content_modify {f : Entry K V → Entry K V} (hf : ∀ e, ((f e).key, (f e).value, (f e).keyHash) =
    (e.key, e.value, e.keyHash)) : (m.modify a f).content = m.content := by
  funext c
  by_cases hc : c = a
  · subst hc
    cases hcell : m.entries c <;> simp [HashMap.modify, HashMap.content, hcell, hf]
  · simp [HashMap.modify, HashMap.content, hc]

theorem content_store (p : Link Nat Addr) (q : Option Addr) : (m.store p q).content = m.content := by
  cases p with
  | root i => rfl
  | next a => exact content_modify fun _ => rfl

theorem entries_modify_of_ne {f : Entry K V → Entry K V} (h : b ≠ a) :
    (m.modify a f).entries b = m.entries b := Function.update_of_ne h _ _

theorem HashMap.Present.modify {p : Link Nat Addr} (h : m.Present p) (a : Addr)
    (f : Entry K V → Entry K V) : (m.modify a f).Present p := by
  cases p with
  | root i => trivial
  | next c =>
    obtain ⟨e, he⟩ := h
    by_cases hc : c = a
    · subst hc
      exact ⟨f e, by simp [HashMap.modify, he]⟩
    · exact ⟨e, (entries_modify_of_ne hc).trans he⟩

theorem mem_alloc (m : HashMap K V) (a : Addr) (e : Entry K V) : (m.alloc a e).mem =
    { get := Function.update m.mem.get (.next a) e.next
      back := Function.update m.mem.back a (some e.prevptr) } := by
  refine PtrMem.ext (fun p => ?_) fun c => ?_
  · cases p with
    | root j => simp [HashMap.alloc, HashMap.mem, Function.update_apply]
    | next c => by_cases hc : c = a <;> simp [HashMap.alloc, HashMap.mem, Function.update_apply, hc]
  · by_cases hc : c = a <;> simp [HashMap.alloc, HashMap.mem, Function.update_apply, hc]

theorem mem_free (m : HashMap K V) (a : Addr) : (∀ p, p ≠ .next a → (m.free a).mem.get p = m.mem.get p) ∧
      ∀ b, b ≠ a → (m.free a).mem.back b = m.mem.back b := by
  refine ⟨fun p hp => ?_, fun b hb => ?_⟩
  · cases p with
    | root j => rfl
    | next c =>
      have hc : c ≠ a := fun h => hp (by rw [h])
      simp [HashMap.free, HashMap.mem, Function.update_of_ne hc]
  · simp [HashMap.free, HashMap.mem, Function.update_of_ne hb]

theorem mem_entryCount (m : HashMap K V) (n : Nat) : HashMap.mem { m with entryCount := n } = m.mem := rfl

theorem mem_linkEntry (ha : m.entries a = none) (hb : ∀ b, m.buckets i = some b → ∃ e, m.entries b = some e) :
    (linkEntry m a i key value keyHash).mem = m.mem.push (.root i) a := by
  rw [linkEntry, PtrMem.push, mem_entryCount, mem_store (present_root _ i)]
  cases hhead : m.buckets i with
  | none =>
    have hget : m.mem.get (.root i) = none := hhead
    simp only [mem_alloc, hget]
  | some b =>
    have hget : m.mem.get (.root i) = some b := hhead
    obtain ⟨e, he⟩ := hb b hhead
    have hba : b ≠ a := fun h => by
      rw [h, ha] at he
      cases he
    have hcell := (Function.update_of_ne hba (some (⟨.root i, some b, key, value, keyHash⟩ :
      Entry K V)) m.entries).trans he
    have hprev := mem_modify_prevptr (m := m.alloc a ⟨.root i, some b, key, value, keyHash⟩) hcell (.next a)
    simp only [hprev, mem_alloc, hget, Function.update_comm hba]

theorem mem_unlinkEntry (he : m.entries a = some e) (hp : m.Present e.prevptr)
    (hb : ∀ b, e.next = some b → ∃ e, m.entries b = some e) :
    (∀ p, p ≠ .next a → (unlinkEntry m a e).mem.get p = (m.mem.unlink a).get p) ∧
      ∀ b, b ≠ a → (unlinkEntry m a e).mem.back b = (m.mem.unlink a).back b := by
  have hback : m.mem.back a = some e.prevptr := by simp [HashMap.mem, he]
  have hnext : m.mem.get (.next a) = e.next := by simp [HashMap.mem, he]
  have hmem : ∀ m₁ : HashMap K V, m₁.Present e.prevptr → m₁.mem = { m.mem with back := (m.mem.unlink a).back } →
      (m₁.store e.prevptr e.next).mem = m.mem.unlink a := by
    intro m₁ hp₁ hm₁
    rw [mem_store hp₁, hm₁, PtrMem.unlink, hback, hnext]
  rw [unlinkEntry, mem_entryCount]
  cases hn : e.next with
  | none =>
    have hm := hmem m hp (by rw [PtrMem.unlink, hnext, hn])
    rw [hn] at hm
    rw [← hm]
    exact mem_free _ a
  | some b =>
    obtain ⟨e', he'⟩ := hb b hn
    have hm := hmem _ (hp.modify b _) (by rw [mem_modify_prevptr he', PtrMem.unlink, hnext, hn, hback])
    rw [hn] at hm
    simp only
    rw [← hm]
    exact mem_free _ a

/-! ## Contents -/

theorem content_linkEntry : (linkEntry m a i key value keyHash).content =
    Function.update m.content a (some (key, value, keyHash)) := by
  have halloc : ∀ e : Entry K V, (m.alloc a e).content =
      Function.update m.content a (some (e.key, e.value, e.keyHash)) := fun e => by
    funext c
    by_cases hc : c = a <;> simp [HashMap.alloc, HashMap.content, hc]
  have hcount : ∀ (m' : HashMap K V) (n : Nat),
      HashMap.content { m' with entryCount := n } = m'.content := fun _ _ => rfl
  rw [linkEntry, hcount, content_store]
  cases m.buckets i with
  | none => exact halloc _
  | some b =>
    refine Eq.trans (content_modify ?_) (halloc _)
    exact fun _ => rfl

theorem content_unlinkEntry : (unlinkEntry m a e).content = Function.update m.content a none := by
  have hfree : ∀ m' : HashMap K V, (m'.free a).content = Function.update m'.content a none := fun m' => by
      funext c
      by_cases hc : c = a <;> simp [HashMap.free, HashMap.content, hc]
  have hcount : ∀ (m' : HashMap K V) (n : Nat),
      HashMap.content { m' with entryCount := n } = m'.content := fun _ _ => rfl
  rw [unlinkEntry, hcount, hfree, content_store]
  cases e.next with
  | none => rfl
  | some b =>
    refine congrArg (Function.update · a none) (content_modify ?_)
    exact fun _ => rfl

/-- Key and value of an entry are replaced. -/
def HashMap.replace (m : HashMap K V) (a : Addr) (key : K) (value : V) : HashMap K V :=
  m.modify a fun e => { e with value, key }

theorem mem_replace (m : HashMap K V) (a : Addr) (key : K) (value : V) : (m.replace a key value).mem = m.mem := by
  refine PtrMem.ext (fun p => ?_) fun c => ?_
  · cases p with
    | root j => rfl
    | next c =>
      by_cases hc : c = a
      · subst hc
        cases he : m.entries c <;> simp [HashMap.replace, HashMap.modify, HashMap.mem, he]
      · simp [HashMap.replace, HashMap.modify, HashMap.mem, hc]
  · by_cases hc : c = a
    · subst hc
      cases he : m.entries c <;> simp [HashMap.replace, HashMap.modify, HashMap.mem, he]
    · simp [HashMap.replace, HashMap.modify, HashMap.mem, hc]

theorem content_replace {k : K} {v : V} {h : UInt32} (hc : m.content a = some (k, v, h)) :
    (m.replace a key value).content = Function.update m.content a (some (key, value, h)) := by
  funext c
  by_cases hca : c = a
  · subst hca
    cases he : m.entries c with
    | none => simp [HashMap.content, he] at hc
    | some e =>
      simp only [HashMap.content, he, Option.map_some, Option.some.injEq, Prod.mk.injEq] at hc
      simp [HashMap.replace, HashMap.modify, HashMap.content, he, hc.2.2]
  · simp [HashMap.replace, HashMap.modify, HashMap.content, hca]

theorem content_eq_some {k : K} {v : V} {h : UInt32} : m.content a = some (k, v, h) ↔
    ∃ e, m.entries a = some e ∧ e.key = k ∧ e.value = v ∧ e.keyHash = h := by
  simp only [HashMap.content, Option.map_eq_some_iff, Prod.mk.injEq]

theorem entries_some_iff : (∃ e, m.entries a = some e) ↔ m.content a ≠ none := by
  cases he : m.entries a <;> simp [HashMap.content, he]

end Nami.Hashmap

/-! ## The invariant of the hash map

Every operation searches the chain of a bucket, and what it then does keeps the chains and leaves one
entry for each key.
-/

namespace Nami.Hashmap

open PtrChain

variable {K V ω : Type} {P : Parameters K V ω} {m m' : HashMap K V} {a b : Addr} {e : Entry K V}
  {i : Nat} {key : K} {value : V} {keyHash : UInt32}

/-! ### The invariant -/

/-- `m` holds one entry for each key, at the chain of its bucket. -/
structure Inv (P : Parameters K V ω) (m : HashMap K V) (chains : Nat → List Addr) : Prop where
  linked : Chains m.mem chains
  bucketCount : m.bucketCount = DEFAULT_HASHMAP_BUCKETS
  bound : ∀ i, ∀ a ∈ chains i, i < m.bucketCount.toNat
  present : ∀ a, (∃ i, a ∈ chains i) ↔ ∃ e, m.entries a = some e
  placed : ∀ i, ∀ a ∈ chains i, ∀ k v h, m.content a = some (k, v, h) →
    h = P.keyHash k ∧ i = m.bucketOf h
  distinct : ∀ a b k v h k' v' h', m.content a = some (k, v, h) → m.content b = some (k', v', h') →
    P.keyEq k k' = true → a = b
  count : m.entryCount = ((List.range m.bucketCount.toNat).flatMap chains).length

/-- The test of the operations on an entry. -/
def HashMap.isMatch (P : Parameters K V ω) (m : HashMap K V) (hash : UInt32) (key : K) (a : Addr) :
    Bool :=
  (m.content a).any fun c => decide (c.2.2 = hash) && P.keyEq key c.1

theorem findEntry_eq {p : Link Nat Addr} {as : List Addr} (h : Chained m.mem p as)
    (hpresent : ∀ a ∈ as, ∃ e, m.entries a = some e) (hash : UInt32) (key : K) (fuel : Nat) :
    (∀ r, findEntry P m hash key fuel (m.mem.get p) = some r → r = as.find? (m.isMatch P hash key)) ∧
      (as.length < fuel → findEntry P m hash key fuel (m.mem.get p) = some (as.find? (m.isMatch P hash key))) := by
  induction as generalizing p fuel with
  | nil =>
    rw [h.head?]
    cases fuel with
    | zero => exact ⟨fun r hr => (by cases hr), fun hf => absurd hf (Nat.not_lt_zero _)⟩
    | succ fuel => exact ⟨fun r hr => (Option.some.inj hr).symm, fun _ => rfl⟩
  | cons a as ih =>
    rw [h.head?]
    obtain ⟨⟨e, he⟩, hpresent⟩ := List.forall_mem_cons.1 hpresent
    have hnext : e.next = m.mem.get (.next a) := by simp [HashMap.mem, he]
    have hmatch : m.isMatch P hash key a = true ↔ e.keyHash = hash ∧ P.keyEq key e.key = true := by
      simp [HashMap.isMatch, HashMap.content, he]
    cases fuel with
    | zero => exact ⟨fun r hr => (by cases hr), fun hf => absurd hf (Nat.not_lt_zero _)⟩
    | succ fuel =>
      simp only [List.head?_cons, findEntry, he, List.length_cons, Nat.add_lt_add_iff_right]
      by_cases hm : e.keyHash = hash ∧ P.keyEq key e.key = true
      · rw [if_pos hm, List.find?_cons_of_pos (hmatch.2 hm)]
        exact ⟨fun r hr => (Option.some.inj hr).symm, fun _ => rfl⟩
      · rw [if_neg hm, List.find?_cons_of_neg (fun h' => hm (hmatch.1 h')), hnext]
        exact ih h.2.2 hpresent fuel

section Steps

variable {chains : Nat → List Addr} {k : K} {v : V} {h : UInt32}

theorem bucketOf_lt (hcount : m.bucketCount = DEFAULT_HASHMAP_BUCKETS) (hash : UInt32) :
    m.bucketOf hash < m.bucketCount.toNat := by
  rw [HashMap.bucketOf, hcount, UInt32.toNat_mod]
  exact Nat.mod_lt _ (by decide)

theorem find_some (hf : (chains (m.bucketOf h)).find? (m.isMatch P h key) = some a) :
    a ∈ chains (m.bucketOf h) ∧ ∃ k v, m.content a = some (k, v, h) ∧ P.keyEq key k = true := by
  refine ⟨List.mem_of_find?_eq_some hf, ?_⟩
  have hmatch := List.find?_some hf
  rw [HashMap.isMatch] at hmatch
  cases hc : m.content a with
  | none => simp [hc] at hmatch
  | some c =>
    obtain ⟨k, v, h'⟩ := c
    simp only [hc, Option.any_some, Bool.and_eq_true, decide_eq_true_eq] at hmatch
    obtain ⟨rfl, heq⟩ := hmatch
    exact ⟨k, v, rfl, heq⟩

theorem Inv.find_none (hP : P.Lawful) (hI : Inv P m chains)
    (hf : (chains (m.bucketOf (P.keyHash key))).find? (m.isMatch P (P.keyHash key) key) = none)
    (hc : m.content a = some (k, v, h)) : P.keyEq key k = false := by
  by_contra heq
  rw [Bool.not_eq_false] at heq
  obtain ⟨i, hi⟩ := (hI.present a).2 (entries_some_iff.2 (by simp [hc]))
  obtain ⟨rfl, rfl⟩ := hI.placed i a hi k v h hc
  rw [← hP.hash _ _ heq] at hi hc
  have hmatch := List.find?_eq_none.1 hf a hi
  rw [HashMap.isMatch, hc] at hmatch
  simp [heq] at hmatch

theorem Inv.replace (hP : P.Lawful) (hI : Inv P m chains) (hc : m.content a = some (k, v, h))
    (hk : P.keyEq k key = true) : Inv P (m.replace a key value) chains := by
  have hcontent := @content_replace _ _ m a key value _ _ _ hc
  have hold : ∀ b k' v' h', (m.replace a key value).content b = some (k', v', h') →
      ∃ k₀ v₀, m.content b = some (k₀, v₀, h') ∧ P.keyEq k₀ k' = true := by
    intro b k' v' h' hb
    rw [hcontent] at hb
    by_cases hba : b = a
    · subst hba
      rw [Function.update_self] at hb
      simp only [Option.some.injEq, Prod.mk.injEq] at hb
      obtain ⟨rfl, -, rfl⟩ := hb
      exact ⟨k, v, hc, hk⟩
    · rw [Function.update_of_ne hba] at hb
      exact ⟨k', v', hb, hP.refl k'⟩
  refine ⟨?_, hI.bucketCount, hI.bound, fun b => ?_, fun i b hb k' v' h' hb' => ?_, ?_, hI.count⟩
  · rw [mem_replace]
    exact hI.linked
  · rw [hI.present, entries_some_iff, entries_some_iff, hcontent]
    by_cases hba : b = a
    · subst hba
      simp [hc]
    · rw [Function.update_of_ne hba]
  · obtain ⟨k₀, v₀, hb₀, heq⟩ := hold b k' v' h' hb'
    obtain ⟨hhash, hi⟩ := hI.placed i b hb k₀ v₀ h' hb₀
    exact ⟨hhash.trans (hP.hash _ _ heq), hi⟩
  · intro b c k₁ v₁ h₁ k₂ v₂ h₂ hb hc' heq
    obtain ⟨k₁', v₁', hb', heq₁⟩ := hold b k₁ v₁ h₁ hb
    obtain ⟨k₂', v₂', hc'', heq₂⟩ := hold c k₂ v₂ h₂ hc'
    exact hI.distinct b c _ _ _ _ _ _ hb' hc'' (hP.trans _ _ _ heq₁ (hP.trans _ _ _ heq (hP.symm _ _ heq₂)))

theorem bucketCount_linkEntry : (linkEntry m a i key value keyHash).bucketCount = m.bucketCount := by
  rw [linkEntry]
  cases m.buckets i <;> rfl

theorem entryCount_linkEntry : (linkEntry m a i key value keyHash).entryCount = m.entryCount + 1 := by
  rw [linkEntry]
  cases m.buckets i <;> rfl

theorem Inv.link (hP : P.Lawful) (hI : Inv P m chains) (ha : m.entries a = none)
    (hnone : ∀ b k v h, m.content b = some (k, v, h) → P.keyEq key k = false)
    (hi : i = m.bucketOf (P.keyHash key)) :
    Inv P (linkEntry m a i key value (P.keyHash key)) (Function.update chains i (a :: chains i)) := by
  have hfresh : ∀ j, a ∉ chains j := fun j hj => by
    obtain ⟨e, he⟩ := (hI.present a).1 ⟨j, hj⟩
    rw [ha] at he
    cases he
  have hhead : ∀ b, m.buckets i = some b → ∃ e, m.entries b = some e := fun b hb =>
    (hI.present b).1 ⟨i, hI.linked.mem_of_get_root hb⟩
  have hmem : ∀ j b, b ∈ Function.update chains i (a :: chains i) j ↔ b = a ∧ j = i ∨ b ∈ chains j := by
    intro j b
    by_cases hj : j = i
    · subst hj
      simp
    · simp [hj]
  have hlt := bucketOf_lt hI.bucketCount (P.keyHash key)
  rw [← hi] at hlt
  refine ⟨?_, bucketCount_linkEntry.trans hI.bucketCount, fun j b hb => ?_, fun b => ?_,
    fun j b hb k v h hc => ?_, fun b c k v h k' v' h' hb hc heq => ?_, ?_⟩
  · rw [mem_linkEntry ha hhead]
    exact hI.linked.push hfresh
  · rw [bucketCount_linkEntry]
    rcases (hmem j b).1 hb with ⟨-, rfl⟩ | hb
    · exact hlt
    · exact hI.bound j b hb
  · rw [entries_some_iff, content_linkEntry]
    simp only [hmem]
    by_cases hba : b = a
    · subst hba
      simp
    · rw [Function.update_of_ne hba, ← entries_some_iff, ← hI.present]
      simp [hba]
  · rw [HashMap.bucketOf, bucketCount_linkEntry, ← HashMap.bucketOf]
    rw [content_linkEntry] at hc
    rcases (hmem j b).1 hb with ⟨rfl, rfl⟩ | hb
    · rw [Function.update_self] at hc
      simp only [Option.some.injEq, Prod.mk.injEq] at hc
      obtain ⟨rfl, -, rfl⟩ := hc
      exact ⟨rfl, hi⟩
    · have hba : b ≠ a := fun he => hfresh j (he ▸ hb)
      rw [Function.update_of_ne hba] at hc
      exact hI.placed j b hb k v h hc
  · rw [content_linkEntry] at hb hc
    by_cases hba : b = a
    · subst hba
      by_cases hcb : c = b
      · exact hcb.symm
      · rw [Function.update_self] at hb
        rw [Function.update_of_ne hcb] at hc
        simp only [Option.some.injEq, Prod.mk.injEq] at hb
        obtain ⟨rfl, -, -⟩ := hb
        rw [hnone c k' v' h' hc] at heq
        cases heq
    · rw [Function.update_of_ne hba] at hb
      by_cases hca : c = a
      · subst hca
        rw [Function.update_self] at hc
        simp only [Option.some.injEq, Prod.mk.injEq] at hc
        obtain ⟨rfl, -, -⟩ := hc
        have hne := hnone b k v h hb
        rw [hP.symm _ _ heq] at hne
        cases hne
      · rw [Function.update_of_ne hca] at hc
        exact hI.distinct b c k v h k' v' h' hb hc heq
  · have hlen := @length_flatMap_update _ chains _ i hlt (a :: chains i)
    rw [entryCount_linkEntry, bucketCount_linkEntry, hI.count]
    rw [List.length_cons] at hlen
    omega

theorem bucketCount_unlinkEntry : (unlinkEntry m a e).bucketCount = m.bucketCount := by
  rw [unlinkEntry]
  cases e.next <;> cases e.prevptr <;> rfl

theorem entryCount_unlinkEntry : (unlinkEntry m a e).entryCount = m.entryCount - 1 := by
  rw [unlinkEntry]
  cases e.next <;> cases e.prevptr <;> rfl

theorem Inv.unlink (hI : Inv P m chains) (he : m.entries a = some e) (hi : a ∈ chains i) :
    Inv P (unlinkEntry m a e) (Function.update chains i ((chains i).erase a)) := by
  have hmem : ∀ j b, b ∈ Function.update chains i ((chains i).erase a) j ↔ b ∈ chains j ∧ b ≠ a := by
    intro j b
    by_cases hj : j = i
    · subst hj
      rw [Function.update_self, (hI.linked.nodup j).mem_erase_iff, and_comm]
    · rw [Function.update_of_ne hj]
      refine ⟨fun hb => ⟨hb, ?_⟩, And.left⟩
      rintro rfl
      exact hI.linked.disjoint j i hj b hb hi
  have hback : m.mem.back a = some e.prevptr := by simp [HashMap.mem, he]
  have hprev : m.Present e.prevptr := by
    obtain ⟨q, hq, hq'⟩ := (hI.linked.chained i).back_eq hi
    obtain rfl := Option.some.inj (hback.symm.trans hq)
    rcases hq' with hq' | ⟨c, hc, hq'⟩
    · rw [hq']
      exact present_root m i
    · rw [hq']
      exact (hI.present c).1 ⟨i, hc⟩
  have hnext : ∀ b, e.next = some b → ∃ e, m.entries b = some e := by
    intro b hb
    obtain ⟨xs, ys, hsplit, -⟩ := List.eq_append_cons_of_mem hi
    have hchain := hI.linked.chained i
    rw [hsplit] at hchain
    have hget : m.mem.get (.next a) = e.next := by simp [HashMap.mem, he]
    rw [hchain.get_next] at hget
    refine (hI.present b).1 ⟨i, ?_⟩
    rw [hsplit]
    exact List.mem_append_right _ (List.mem_cons_of_mem _ (List.mem_of_head? (hget.trans hb)))
  obtain ⟨hget', hback'⟩ := mem_unlinkEntry he hprev hnext
  refine ⟨?_, bucketCount_unlinkEntry.trans hI.bucketCount, fun j b hb => ?_, fun b => ?_,
    fun j b hb k v h hc => ?_, fun b c k v h k' v' h' hb hc heq => ?_, ?_⟩
  · refine (hI.linked.unlink hi).congr (fun j => hget' _ (root_ne_next j a)) (fun j b hb => ?_)
      fun j b hb => hback' b ((hmem j b).1 hb).2
    exact hget' _ fun hba => ((hmem j b).1 hb).2 (Link.next.inj hba)
  · rw [bucketCount_unlinkEntry]
    exact hI.bound j b ((hmem j b).1 hb).1
  · rw [entries_some_iff, content_unlinkEntry]
    simp only [hmem]
    by_cases hba : b = a
    · subst hba
      simp
    · rw [Function.update_of_ne hba, ← entries_some_iff, ← hI.present]
      simp [hba]
  · obtain ⟨hb, hba⟩ := (hmem j b).1 hb
    rw [content_unlinkEntry, Function.update_of_ne hba] at hc
    rw [HashMap.bucketOf, bucketCount_unlinkEntry, ← HashMap.bucketOf]
    exact hI.placed j b hb k v h hc
  · have hold : ∀ b c, (unlinkEntry m a e).content b = some c → m.content b = some c := by
      intro b c hb
      rw [content_unlinkEntry] at hb
      by_cases hba : b = a
      · subst hba
        rw [Function.update_self] at hb
        cases hb
      · rwa [Function.update_of_ne hba] at hb
    exact hI.distinct b c k v h k' v' h' (hold b _ hb) (hold c _ hc) heq
  · have hlen := @length_flatMap_update _ chains _ i (hI.bound i a hi) ((chains i).erase a)
    have hpos := List.length_pos_of_mem hi
    rw [List.length_erase_of_mem hi] at hlen
    rw [entryCount_unlinkEntry, bucketCount_unlinkEntry, hI.count]
    omega

end Steps

/-! ### Results -/

/-- The map has a value for a key. -/
def HashMap.Maps (P : Parameters K V ω) (m : HashMap K V) (key : K) (v : V) : Prop :=
  ∃ a k h, m.content a = some (k, v, h) ∧ P.keyEq key k = true

/-- The pairs that are handed to the callback: those up to the first at which it returns true. -/
def callbacks (cb : K → V → Bool) : List (K × V) → List (K × V) × Bool
  | [] => ([], false)
  | p :: ps =>
    if cb p.1 p.2 then ([p], true) else (p :: (callbacks cb ps).1, (callbacks cb ps).2)

theorem callbacks_append (cb : K → V → Bool) (ps qs : List (K × V)) : callbacks cb (ps ++ qs) =
      if (callbacks cb ps).2 then callbacks cb ps
      else ((callbacks cb ps).1 ++ (callbacks cb qs).1, (callbacks cb qs).2) := by
  induction ps with
  | nil => rfl
  | cons p ps ih =>
    simp only [List.cons_append, callbacks, ih]
    by_cases hcb : cb p.1 p.2 = true
    · simp [hcb]
    · by_cases hps : (callbacks cb ps).2 = true <;> simp [hcb, hps]

/-- The keys and values of entries. -/
def HashMap.pairs (m : HashMap K V) (addrs : List Addr) : List (K × V) :=
  addrs.filterMap fun a => (m.entries a).map fun e => (e.key, e.value)

section Results

variable {chains : Nat → List Addr} {fuel : Nat}

theorem iterateChain_eq {p : Link Nat Addr} {as : List Addr} (h : Chained m.mem p as)
    (hpresent : ∀ a ∈ as, ∃ e, m.entries a = some e) (cb : K → V → Bool) (hfuel : as.length < fuel) :
    iterateChain m cb fuel (m.mem.get p) = some (callbacks cb (m.pairs as)) := by
  induction as generalizing p fuel with
  | nil =>
    rw [h.head?]
    obtain ⟨fuel, rfl⟩ := Nat.exists_eq_add_one_of_ne_zero (Nat.ne_of_gt hfuel)
    rfl
  | cons a as ih =>
    rw [h.head?]
    obtain ⟨⟨e, he⟩, hpresent⟩ := List.forall_mem_cons.1 hpresent
    obtain ⟨fuel, rfl⟩ := Nat.exists_eq_add_one_of_ne_zero (Nat.ne_of_gt (Nat.zero_lt_of_lt hfuel))
    have hnext : e.next = m.mem.get (.next a) := by simp [HashMap.mem, he]
    have hpairs : m.pairs (a :: as) = (e.key, e.value) :: m.pairs as := by
      simp [HashMap.pairs, he]
    simp only [List.head?_cons, iterateChain, he, hpairs, callbacks, hnext,
      ih h.2.2 hpresent (Nat.lt_of_succ_lt_succ hfuel)]
    split <;> rfl

theorem Inv.length_chain_le (hI : Inv P m chains) (i : Nat) : (chains i).length ≤ m.entryCount := by
  by_cases hi : i < m.bucketCount.toNat
  · have hlen := @length_flatMap_update _ chains _ i hi []
    rw [hI.count]
    rw [List.length_nil] at hlen
    omega
  · have hempty : chains i = [] := List.eq_nil_iff_forall_not_mem.2 fun a ha => hi (hI.bound i a ha)
    rw [hempty]
    exact Nat.zero_le _

theorem iterateBuckets_eq (hI : Inv P m chains) (hfuel : m.entryCount < fuel) (cb : K → V → Bool)
    (buckets : List Nat) : iterateBuckets fuel m cb buckets =
      some (callbacks cb (m.pairs (buckets.flatMap chains))) := by
  induction buckets with
  | nil => rfl
  | cons i buckets ih =>
    have hchain := iterateChain_eq (hI.linked.chained i) (fun a ha => (hI.present a).1 ⟨i, ha⟩) cb
      (Nat.lt_of_le_of_lt (hI.length_chain_le i) hfuel)
    have hpairs : m.pairs ((i :: buckets).flatMap chains) = m.pairs (chains i) ++ m.pairs (buckets.flatMap chains) := by
      rw [HashMap.pairs, List.flatMap_cons, List.filterMap_append]
      rfl
    have hroot : m.mem.get (.root i) = m.buckets i := rfl
    rw [hroot] at hchain
    rw [iterateBuckets, hchain, ih, hpairs, callbacks_append]
    cases hstop : callbacks cb (m.pairs (chains i)) with
    | mk calls stop => cases stop <;> rfl

theorem hashmapIterate_eq (hI : Inv P m chains) (hfuel : m.entryCount < fuel) (cb : K → V → Bool) :
    hashmapIterate fuel m cb = some (callbacks cb (m.pairs ((List.range m.bucketCount.toNat).flatMap chains))) :=
  iterateBuckets_eq hI hfuel cb _

theorem Inv.findEntry_eq (hI : Inv P m chains) (key : K) :
    (∀ r, findEntry P m (P.keyHash key) key fuel (m.buckets (m.bucketOf (P.keyHash key))) = some r →
      r = (chains (m.bucketOf (P.keyHash key))).find? (m.isMatch P (P.keyHash key) key)) ∧
    (m.entryCount < fuel → findEntry P m (P.keyHash key) key fuel (m.buckets (m.bucketOf (P.keyHash key))) =
        some ((chains (m.bucketOf (P.keyHash key))).find? (m.isMatch P (P.keyHash key) key))) := by
  have hfind := Hashmap.findEntry_eq (P := P) (hI.linked.chained (m.bucketOf (P.keyHash key)))
    (fun a ha => (hI.present a).1 ⟨_, ha⟩) (P.keyHash key) key fuel
  exact ⟨hfind.1, fun hf => hfind.2 (Nat.lt_of_le_of_lt (hI.length_chain_le _) hf)⟩

theorem hashmapLookup_eq (hP : P.Lawful) (hI : Inv P m chains) (hfuel : m.entryCount < fuel)
    (key : K) : ∃ r, hashmapLookup P fuel m key = some r ∧ ∀ v, m.Maps P key v ↔ r = some v := by
  rw [hashmapLookup]
  simp only [(hI.findEntry_eq key).2 hfuel, Option.map_some]
  refine ⟨_, rfl, fun v => ?_⟩
  cases hf : (chains (m.bucketOf (P.keyHash key))).find? (m.isMatch P (P.keyHash key) key) with
  | none =>
    refine iff_of_false ?_ (by simp)
    rintro ⟨a, k, h, hc, heq⟩
    rw [hI.find_none hP hf hc] at heq
    cases heq
  | some a =>
    obtain ⟨-, k, v', hc, heq⟩ := find_some hf
    obtain ⟨e, he, rfl, rfl, -⟩ := content_eq_some.1 hc
    rw [Option.bind_some, he, Option.map_some, Option.some.injEq]
    constructor
    · rintro ⟨b, k, h, hb, heq'⟩
      obtain rfl := hI.distinct a b _ _ _ _ _ _ hc hb (hP.trans _ _ _ (hP.symm _ _ heq) heq')
      rw [hc] at hb
      simp only [Option.some.injEq, Prod.mk.injEq] at hb
      exact hb.2.1
    · rintro rfl
      exact ⟨a, e.key, _, hc, heq⟩

theorem hashmapInsert_cases (hP : P.Lawful) (hI : Inv P m chains) {w : ω} {mem : Option Addr}
    (hmem : ∀ a ∈ mem, m.entries a = none) {r : Option V}
    (h : hashmapInsert P fuel m w mem key = some (m', r)) :
    (r = none ∧ m' = m) ∨
    (∃ a k v h newKey newValue, m.content a = some (k, v, h) ∧ P.keyEq key k = true ∧
      P.keyClone w key = some newKey ∧ P.valueAlloc w k = some newValue ∧ r = some newValue ∧
      m' = m.replace a newKey newValue) ∨
    ∃ a newKey newValue, m.entries a = none ∧ (∀ b k v h, m.content b = some (k, v, h) → P.keyEq key k = false) ∧
      P.keyClone w key = some newKey ∧ P.valueAlloc w newKey = some newValue ∧ r = some newValue ∧
      m' = linkEntry m a (m.bucketOf (P.keyHash key)) newKey newValue (P.keyHash key) := by
  unfold hashmapInsert at h
  simp only at h
  cases hf : findEntry P m (P.keyHash key) key fuel (m.buckets (m.bucketOf (P.keyHash key))) with
  | none => simp [hf] at h
  | some found =>
    have hfind := (hI.findEntry_eq key).1 found hf
    rw [hf] at h
    cases found with
    | some a =>
      obtain ⟨-, k, v, hc, heq⟩ := find_some hfind.symm
      obtain ⟨e, he, rfl, rfl, -⟩ := content_eq_some.1 hc
      simp only [he, Option.map_some, Option.some.injEq] at h
      cases hclone : P.keyClone w key with
      | none =>
        simp only [hclone, Prod.mk.injEq] at h
        exact Or.inl ⟨h.2.symm, h.1.symm⟩
      | some newKey =>
        cases halloc : P.valueAlloc w e.key with
        | none =>
          simp only [hclone, halloc, Prod.mk.injEq] at h
          exact Or.inl ⟨h.2.symm, h.1.symm⟩
        | some newValue =>
          simp only [hclone, halloc, Prod.mk.injEq] at h
          exact Or.inr (Or.inl ⟨a, _, _, _, newKey, newValue, hc, heq, rfl, halloc, h.2.symm, h.1.symm⟩)
    | none =>
      cases mem with
      | none =>
        simp only [Option.some.injEq, Prod.mk.injEq] at h
        exact Or.inl ⟨h.2.symm, h.1.symm⟩
      | some a =>
        cases hclone : P.keyClone w key with
        | none =>
          simp only [hclone, Option.some.injEq, Prod.mk.injEq] at h
          exact Or.inl ⟨h.2.symm, h.1.symm⟩
        | some newKey =>
          cases halloc : P.valueAlloc w newKey with
          | none =>
            simp only [hclone, halloc, Option.some.injEq, Prod.mk.injEq] at h
            exact Or.inl ⟨h.2.symm, h.1.symm⟩
          | some newValue =>
            simp only [hclone, halloc, Option.some.injEq, Prod.mk.injEq] at h
            refine Or.inr (Or.inr ⟨a, newKey, newValue, hmem a rfl, fun b k v h hc => ?_, rfl, halloc,
              h.2.symm, h.1.symm⟩)
            exact hI.find_none hP hfind.symm hc

theorem hashmapRemove_cases (hP : P.Lawful) (hI : Inv P m chains) {r : Bool}
    (h : hashmapRemove P fuel m key = some (m', r)) :
    (m' = m ∧ ∀ b k v h, m.content b = some (k, v, h) → P.keyEq key k = false) ∨
    ∃ i a e, a ∈ chains i ∧ m.entries a = some e ∧ P.keyEq key e.key = true ∧ m' = unlinkEntry m a e := by
  unfold hashmapRemove at h
  simp only at h
  cases hf : findEntry P m (P.keyHash key) key fuel (m.buckets (m.bucketOf (P.keyHash key))) with
  | none => simp [hf] at h
  | some found =>
    have hfind := (hI.findEntry_eq key).1 found hf
    rw [hf] at h
    cases found with
    | none =>
      simp only [Option.some.injEq, Prod.mk.injEq] at h
      exact Or.inl ⟨h.1.symm, fun b k v h hc => hI.find_none hP hfind.symm hc⟩
    | some a =>
      obtain ⟨hmem, k, v, hc, heq⟩ := find_some hfind.symm
      obtain ⟨e, he, rfl, rfl, -⟩ := content_eq_some.1 hc
      simp only [he, Option.map_some, Option.some.injEq, Prod.mk.injEq] at h
      exact Or.inr ⟨_, a, e, hmem, he, heq, h.1.symm⟩

end Results

end Nami.Hashmap
