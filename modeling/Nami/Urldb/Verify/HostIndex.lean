import Nami.Lib.Run
import Nami.Urldb.Basic

/-!
# The host index

`urldb_add_host` indexes a host in one of the search trees and a lookup searches one of them, each
with its own choice of the tree and its own comparison. `HostIndex` is what the additions keep, and
`findHost_eq_some_iff` what a lookup then answers. The trees are chosen alike as long as no label
of a name is itself an address (`Indexable`).
-/

namespace Nami.Urldb

open List
open Ascii

variable {P : Platform} {db : Db}

/-! ## Spellings of a host -/

theorem count_lower {d : UInt8} (hd : isAlpha d = false) (s : Bytes) : (lower s).count d = s.count d := by
  rw [lower, count_eq_countP, countP_map, count_eq_countP]
  congr 1
  funext c
  rw [Function.comp_apply, Bool.eq_iff_iff, beq_iff_eq, beq_iff_eq, toLower_eq_iff hd]

theorem map_toLower_eq_some {o : Option UInt8} {d : UInt8} (hd : isAlpha d = false) :
    o.map toLower = some d ↔ o = some d := by
  cases o with
  | none => simp
  | some c => simp [toLower_eq_iff hd]

theorem addressBytes_eq : str "0123456789abcdefABCDEF[].:" =
    [48, 49, 50, 51, 52, 53, 54, 55, 56, 57, 97, 98, 99, 100, 101, 102, 65, 66, 67, 68, 69, 70, 91, 93, 46, 58] := by
  decide

theorem isAddressByte_lower (c : UInt8) : isAddressByte (toLower c) = isAddressByte c := by
  cases h : isAlphaUpper c with
  | false => rw [toLower_of_not_upper h]
  | true =>
    have hlower := toNat_toLower_of_upper h
    rw [isAlphaUpper_iff] at h
    unfold isAddressByte
    rw [addressBytes_eq, decide_eq_decide]
    simp only [mem_cons, not_mem_nil, or_false, ← UInt8.toNat_inj, hlower, UInt8.reduceToNat]
    omega

theorem hostIsIpAddress_lower (hP : P.Caseless) (host : Bytes) :
    hostIsIpAddress P (lower host) = hostIsIpAddress P host := by
  have hsane : (lower host).takeWhile (· ≠ ('/' : UInt8)) = lower (host.takeWhile (· ≠ ('/' : UInt8))) := by
    rw [lower_takeWhile]
    intro c
    simp only [toLower_eq_iff (d := ('/' : UInt8)) (by decide), ne_eq]
  simp only [hostIsIpAddress, hsane]
  generalize host.takeWhile (· ≠ ('/' : UInt8)) = s
  have hhead : ((lower s).head? != some ('[' : UInt8)) = (s.head? != some ('[' : UInt8)) := by
    rw [lower, List.head?_map, Bool.eq_iff_iff, bne_iff_ne, bne_iff_ne, Ne, Ne, map_toLower_eq_some (by decide)]
  have hlast : ((lower s).getLast? != some (']' : UInt8)) = (s.getLast? != some (']' : UInt8)) := by
    rw [lower, List.getLast?_map, Bool.eq_iff_iff, bne_iff_ne, bne_iff_ne, Ne, Ne,
      map_toLower_eq_some (by decide)]
  have hmid : P.inetPton6 (((lower s).drop 1).take (min (s.length - 2) 63)) =
      P.inetPton6 ((s.drop 1).take (min (s.length - 2) 63)) := by
    refine hP.inetPton6 ?_
    rw [lower, lower, lower, ← map_drop, ← map_take, ← lower, ← lower, lower_idem]
  simp only [all_lower isAddressByte_lower, hP.inetAton (lower_idem s), count_lower (d := ('.' : UInt8))
    (by decide), length_lower, hhead, hlast, hmid]

theorem hostIsIpAddress_congr (hP : P.Caseless) {a b : Bytes} (h : lower a = lower b) :
    hostIsIpAddress P a = hostIsIpAddress P b := by
  rw [← hostIsIpAddress_lower hP a, h, hostIsIpAddress_lower hP]

theorem labels_lower (host : Bytes) : labels (lower host) = (labels host).map lower :=
  splitOn_lower (by decide) host

theorem labels_ne_nil (host : Bytes) : labels host ≠ [] := splitOn_ne_nil _ _

theorem lowerRef_labels {a b : Bytes} : lowerRef (labels a) = lowerRef (labels b) ↔ lower a = lower b := by
  have h : ∀ s : Bytes, lowerRef (labels s) = labels (lower s) := fun s => (labels_lower s).symm
  rw [h, h]
  constructor
  · intro he
    have hj : ∀ s : Bytes, [('.' : UInt8)].intercalate (labels s) = s := fun s => intercalate_splitOn _
    rw [← hj (lower a), he, hj]
  · exact congrArg labels

theorem nameTree_ne_zero (c : UInt8) : nameTree c ≠ 0 := by
  revert c
  decide +kernel

theorem nameTree_toLower (c : UInt8) : nameTree (toLower c) = nameTree c := by
  simp only [nameTree, isAlpha_toLower, toLower_idem]

theorem headD_lower (s : Bytes) : (lower s).headD 0 = toLower (s.headD 0) := by
  cases s <;> rfl

theorem getSearchTree_eq_zero_iff {host : Bytes} : getSearchTree P host = 0 ↔ hostIsIpAddress P host = true := by
  cases h : hostIsIpAddress P host
  · simp [getSearchTree, h, nameTree_ne_zero]
  · simp only [getSearchTree, h, if_true, iff_true]
    rfl

theorem getSearchTree_congr (hP : P.Caseless) {a b : Bytes} (h : lower a = lower b) :
    getSearchTree P a = getSearchTree P b := by
  have hn : nameTree (a.headD 0) = nameTree (b.headD 0) := by
    rw [← nameTree_toLower, ← headD_lower, h, headD_lower, nameTree_toLower]
  rw [getSearchTree, getSearchTree, hostIsIpAddress_congr hP h, hn]

/-- The name under which a lookup searches a host. -/
def hostKey (P : Platform) (host : Bytes) : HostRef :=
  if hostIsIpAddress P host then [host] else labels host

theorem hostKey_eq_iff (hP : P.Caseless) {a b : Bytes} :
    getSearchTree P a = getSearchTree P b ∧ lowerRef (hostKey P a) = lowerRef (hostKey P b) ↔ lower a = lower b := by
  constructor
  · rintro ⟨ht, hk⟩
    have hip : hostIsIpAddress P a = hostIsIpAddress P b := by
      rw [Bool.eq_iff_iff, ← getSearchTree_eq_zero_iff, ht, getSearchTree_eq_zero_iff]
    cases h : hostIsIpAddress P b
    · simp only [hostKey, hip, h, Bool.false_eq_true, if_false] at hk
      exact lowerRef_labels.1 hk
    · simp only [hostKey, hip, h, if_true] at hk
      exact (List.cons.inj hk).1
  · intro h
    refine ⟨getSearchTree_congr hP h, ?_⟩
    rw [hostKey, hostKey, hostIsIpAddress_congr hP h]
    split
    · exact congrArg (fun s => [s]) h
    · exact lowerRef_labels.2 h

theorem nameTree_firstLabel (s : Bytes) : nameTree (((labels s).headD []).headD 0) = nameTree (s.headD 0) := by
  cases s with
  | nil => simp [labels]
  | cons c s =>
    rw [labels, splitOn_cons_eq_if_modifyHead]
    by_cases hc : c = '.'
    · subst hc
      simp only [beq_self_eq_true, if_true, headD_cons, headD_nil]
      decide
    · have hne : (c == ('.' : UInt8)) = false := beq_false_of_ne hc
      rw [hne]
      simp only [Bool.false_eq_true, if_false]
      cases h : s.splitOn ('.' : UInt8) with
      | nil => exact absurd h (splitOn_ne_nil _ _)
      | cons l ls => rfl

/-! ## The invariant -/

structure HostIndex (P : Platform) (db : Db) : Prop where
  forest : hostForest.WellFormed db.hosts
  valid : ∀ i, (db.searchTrees i).Valid
  sorted : ∀ i, (db.searchTrees i).Sorted searchMatchHost
  isHost : ∀ i, ∀ d ∈ (db.searchTrees i).toList, hostForest.IsRef db.hosts d
  address : ∀ d ∈ (db.searchTrees 0).toList, ∃ host, d = [host]
  named : ∀ i, i ≠ 0 → ∀ d ∈ (db.searchTrees i).toList, hostIsIpAddress P (d.headD []) = false

theorem hostIndex_empty : HostIndex P Db.empty where
  forest := KeyForest.wellFormed_nil
  valid _ := trivial
  sorted _ := List.Pairwise.nil
  isHost _ _ h := absurd h not_mem_nil
  address _ h := absurd h not_mem_nil
  named _ _ _ h := absurd h not_mem_nil

theorem findHost_eq_some_iff (h : HostIndex P db) {b : Bytes} {d : HostRef} : findHost P b db = some d ↔
      d ∈ (db.searchTrees (getSearchTree P b)).toList ∧ lowerRef d = lowerRef (hostKey P b) := by
  have hf : ∀ x ∈ (db.searchTrees (getSearchTree P b)).toList,
      searchMatchString P x b = searchMatchHost x (hostKey P b) := by
    intro x hx
    cases hip : hostIsIpAddress P b
    · simp only [searchMatchString, hostKey, hip, Bool.false_eq_true, if_false]
      exact matchLabels_eq_searchMatchHost x (labels b)
    · rw [getSearchTree_eq_zero_iff.2 hip] at hx
      obtain ⟨host, rfl⟩ := h.address x hx
      simp only [searchMatchString, hostKey, hip, if_true, searchMatchHost, headD_cons]
      cases strcasecmp host b <;> rfl
  rw [findHost, searchFind, AATree.findBy_eq_some_iff (h.sorted _) hf, searchMatchHost_eq_iff]

/-! ## Additions -/

/-- The host can be added and found again: an address that has a node as the last label of some name
is indexed, and a name does not start with an address. -/
def Indexable (P : Platform) (host : Bytes) (db : Db) : Prop :=
  if hostIsIpAddress P host then
    ∀ e ∈ db.hosts, e.parent = [] → strcasecmp host e.part = .eq →
      e.ref ∈ (db.searchTrees (getSearchTree P host)).toList
  else hostIsIpAddress P ((labels (host.take 255)).headD []) = false

/-- The name under which `urldb_add_host` files a host. -/
def storedKey (P : Platform) (host : Bytes) : HostRef :=
  if hostIsIpAddress P host then [host] else labels (host.take 255)

theorem storedKey_eq_hostKey {host : Bytes} (h : host.length ≤ 255) : storedKey P host = hostKey P host := by
  rw [storedKey, hostKey, take_of_length_le h]

/-- What an addition leads to. -/
structure HostAdded (P : Platform) (db : Db) (i : Fin 28) (key : HostRef) (d : HostRef) (db' : Db) :
    Prop where
  index : HostIndex P db'
  name : lowerRef d = lowerRef key
  mem : ∀ j x, x ∈ (db'.searchTrees j).toList ↔
    x ∈ (db.searchTrees j).toList ∨ j = i ∧ x = d
  sub : ∀ e ∈ db.hosts, e ∈ db'.hosts
  created : ∀ e ∈ db'.hosts, e ∈ db.hosts ∨ ∃ part parent ks, e = hostForest.fresh part parent ∧
    ks <+: key.reverse ∧ ks ≠ [] ∧ lowerRef e.ref = lowerRef ks.reverse
  urlBloom : db'.urlBloom = db.urlBloom

theorem mem_searchInsert {i : Fin 28} {d : HostRef} (hwf : hostForest.WellFormed db.hosts)
    (hsorted : ∀ j, (db.searchTrees j).Sorted searchMatchHost)
    (hhost : ∀ j, ∀ x ∈ (db.searchTrees j).toList, hostForest.IsRef db.hosts x)
    (hd : hostForest.IsRef db.hosts d) (j : Fin 28) (x : HostRef) :
    x ∈ ((searchInsert i d db).searchTrees j).toList ↔ x ∈ (db.searchTrees j).toList ∨ j = i ∧ x = d := by
  by_cases hj : j = i
  · subst hj
    simp only [searchInsert, Function.update_self, AATree.mem_insert (hsorted j), true_and]
    constructor
    · rintro (hx | ⟨rfl, -⟩)
      · exact Or.inl hx
      · exact Or.inr rfl
    · rintro (hx | rfl)
      · exact Or.inl hx
      · -- an element equal to the new one is the new one
        by_cases heq : ∃ z ∈ (db.searchTrees j).toList, searchMatchHost z x = .eq
        · obtain ⟨z, hz, hzx⟩ := heq
          obtain rfl := hwf.ref_eq_of_normRef (hhost j z hz) hd (searchMatchHost_eq_iff.1 hzx)
          exact Or.inl hz
        · exact Or.inr ⟨rfl, fun z hz hzx => heq ⟨z, hz, hzx⟩⟩
  · simp [searchInsert, hj]

theorem sorted_searchInsert {i : Fin 28} {d : HostRef}
    (hsorted : ∀ j, (db.searchTrees j).Sorted searchMatchHost) (j : Fin 28) :
    ((searchInsert i d db).searchTrees j).Sorted searchMatchHost := by
  by_cases hj : j = i
  · subst hj
    simpa [searchInsert] using AATree.insert_sorted _ (hsorted j)
  · simpa [searchInsert, Function.update_of_ne hj] using hsorted j

theorem HostIndex.searchInsert (h : HostIndex P db) {i : Fin 28} {d : HostRef}
    (hd : hostForest.IsRef db.hosts d) (haddress : i = 0 → ∃ host, d = [host])
    (hnamed : i ≠ 0 → hostIsIpAddress P (d.headD []) = false) :
    HostIndex P (searchInsert i d db) ∧ ∀ j x, x ∈ ((Urldb.searchInsert i d db).searchTrees j).toList ↔
        x ∈ (db.searchTrees j).toList ∨ j = i ∧ x = d := by
  have hmem := @mem_searchInsert db i d h.forest h.sorted h.isHost hd
  refine ⟨⟨h.forest, ?_, sorted_searchInsert h.sorted, ?_, ?_, ?_⟩, hmem⟩
  · intro j
    by_cases hj : j = i
    · subst hj
      simpa [Urldb.searchInsert] using AATree.insert_valid _ _ (h.valid j)
    · simpa [Urldb.searchInsert, hj] using h.valid j
  · intro j x hx
    rcases (hmem j x).1 hx with hx | ⟨-, rfl⟩
    · exact h.isHost j x hx
    · exact hd
  · intro x hx
    rcases (hmem 0 x).1 hx with hx | ⟨hi, rfl⟩
    · exact h.address x hx
    · exact haddress hi.symm
  · intro j hj x hx
    rcases (hmem j x).1 hx with hx | ⟨rfl, rfl⟩
    · exact h.named j hj x hx
    · exact hnamed hj

theorem HostIndex.withHosts (h : HostIndex P db) {hosts : List HostPart}
    (hwf : hostForest.WellFormed hosts) (hsub : ∀ e ∈ db.hosts, e ∈ hosts) :
    HostIndex P { db with hosts } :=
  ⟨hwf, h.valid, h.sorted, fun i d hd => (h.isHost i d hd).mono hsub, h.address, h.named⟩

theorem addHost_spec (hP : P.Caseless) (h : HostIndex P db) {host : Bytes} (hok : Indexable P host db) :
    HostAdded P db (getSearchTree P host) (storedKey P host) (addHost P host db).1 (addHost P host db).2 := by
  cases hip : hostIsIpAddress P host
  · -- a name
    simp only [Indexable, hip, Bool.false_eq_true, if_false] at hok
    have hd := KeyForest.descend_spec (labels (host.take 255)).reverse h.forest (Or.inl rfl)
    simp only [addHost, hip, Bool.false_eq_true, if_false, addNamedHost, storedKey]
    generalize hostForest.descend (labels (host.take 255)).reverse [] db.hosts = r at hd ⊢
    obtain ⟨hwf, href, hname, hsub, hnew⟩ := hd
    have hname' : lowerRef r.1 = lowerRef (labels (host.take 255)) := by
      simpa using hname
    have htree : getSearchTree P ((labels (host.take 255)).headD []) = getSearchTree P host := by
      rw [getSearchTree, getSearchTree, hok, hip]
      simp only [Bool.false_eq_true, if_false, nameTree_firstLabel]
      cases host <;> rfl
    have hhead : hostIsIpAddress P (r.1.headD []) = false := by
      rw [← hok]
      refine hostIsIpAddress_congr hP ?_
      have hmap : ∀ l : HostRef, lower (l.headD []) = (lowerRef l).headD [] := by
        intro l
        cases l <;> rfl
      rw [hmap, hname', ← hmap]
    have hne : getSearchTree P host ≠ 0 := by
      rw [Ne, getSearchTree_eq_zero_iff, hip]
      exact Bool.false_ne_true
    rw [htree]
    obtain ⟨hidx, hmem⟩ := (h.withHosts hwf hsub).searchInsert href (fun h0 => absurd h0 hne) fun _ => hhead
    refine ⟨hidx, hname', hmem, hsub, ?_, rfl⟩
    intro e he
    refine (hnew e he).imp id ?_
    rintro ⟨part, parent, ks, rfl, hpre, hne, heq⟩
    refine ⟨part, parent, ks, rfl, hpre, hne, ?_⟩
    rw [HostPart.ref, KeyForest.ref_fresh]
    simpa using heq
  · -- an address
    have h0 : getSearchTree P host = 0 := getSearchTree_eq_zero_iff.2 hip
    simp only [Indexable, hip, if_true, h0] at hok
    simp only [addHost, hip, if_true, addIpHost, storedKey, h0]
    cases hf : hostForest.findChild db.hosts [] host with
    | some e =>
      obtain ⟨he, hp, hk⟩ := KeyForest.findChild_eq_some hf
      have hin : e.ref ∈ (db.searchTrees 0).toList := hok e he hp (strcasecmp_eq_iff.2 hk)
      refine ⟨h, ?_, ?_, fun _ h => h, fun e he => Or.inl he, rfl⟩
      · simp only [lowerRef, KeyForest.normRef, HostPart.ref, KeyForest.ref, hp, map_cons]
        exact congrArg (fun s => [s]) hk.symm
      · intro j x
        refine ⟨Or.inl, ?_⟩
        rintro (hx | ⟨rfl, rfl⟩)
        · exact hx
        · exact hin
    | none =>
      have hwf := h.forest.place (Or.inl rfl) hf
      have hsub : ∀ e ∈ db.hosts, e ∈ hostForest.fresh host [] :: db.hosts := fun e he => mem_cons_of_mem _ he
      obtain ⟨hidx, hmem⟩ := (h.withHosts hwf hsub).searchInsert
        (d := [host]) (i := 0) (Or.inr ⟨_, mem_cons_self, rfl⟩) (fun _ => ⟨host, rfl⟩)
        fun hne => absurd rfl hne
      refine ⟨hidx, rfl, hmem, hsub, ?_, rfl⟩
      intro e he
      rcases mem_cons.1 he with rfl | he
      · exact Or.inr ⟨host, [], [host], rfl, by simp, by simp, rfl⟩
      · exact Or.inl he

/-! ## Runs of additions -/

/-- Calls of `urldb_add_host` on an empty database, each with the host and the node it returned. -/
def addHosts (P : Platform) : System Db (Bytes × HostRef) where
  init db := db = Db.empty
  step call db db' := addHost P call.1 db = (call.2, db')

/-- The search trees are balanced and ordered, and a lookup returns exactly what was added. -/
structure IndexCorrect (P : Platform) (calls : List (Bytes × HostRef)) (db : Db) : Prop where
  valid : ∀ i, (db.searchTrees i).Valid
  sorted : ∀ i, (db.searchTrees i).Sorted searchMatchHost
  lookup : ∀ b node, findHost P b db = some node ↔
    ∃ host, (host, node) ∈ calls ∧ lower host = lower b

/-- The additions of hosts that fit the buffer and can be found again. -/
def goodAddition (P : Platform) (call : Bytes × HostRef) (db : Db) : Prop :=
  call.1.length ≤ 255 ∧ Indexable P call.1 db

/-- What the index owes to the calls so far. -/
structure IndexTrace (P : Platform) (calls : List (Bytes × HostRef)) (db : Db) : Prop where
  index : HostIndex P db
  mem : ∀ i d, d ∈ (db.searchTrees i).toList ↔
    ∃ host, (host, d) ∈ calls ∧ getSearchTree P host = i
  name : ∀ host d, (host, d) ∈ calls → lowerRef d = lowerRef (hostKey P host)

theorem IndexTrace.add {calls : List (Bytes × HostRef)} (hP : P.Caseless)
    (h : IndexTrace P calls db) {host : Bytes} (hlen : host.length ≤ 255)
    (hok : Indexable P host db) :
    IndexTrace P (calls ++ [(host, (addHost P host db).1)]) (addHost P host db).2 := by
  have ha := addHost_spec hP h.index hok
  refine ⟨ha.index, ?_, ?_⟩
  · intro i d
    rw [ha.mem, h.mem]
    simp only [mem_append, mem_singleton, Prod.mk.injEq]
    constructor
    · rintro (⟨host', hc, rfl⟩ | ⟨rfl, rfl⟩)
      · exact ⟨host', Or.inl hc, rfl⟩
      · exact ⟨host, Or.inr ⟨rfl, rfl⟩, rfl⟩
    · rintro ⟨host', hc | ⟨rfl, rfl⟩, rfl⟩
      · exact Or.inl ⟨host', hc, rfl⟩
      · exact Or.inr ⟨rfl, rfl⟩
  · intro host' d hc
    rcases mem_append.1 hc with hc | hc
    · exact h.name host' d hc
    · obtain ⟨rfl, rfl⟩ := Prod.mk.inj (mem_singleton.1 hc)
      rw [ha.name, storedKey_eq_hostKey hlen]

theorem IndexTrace.correct {calls : List (Bytes × HostRef)} (hP : P.Caseless)
    (h : IndexTrace P calls db) : IndexCorrect P calls db where
  valid := h.index.valid
  sorted := h.index.sorted
  lookup b node := by
    rw [findHost_eq_some_iff h.index, h.mem]
    constructor
    · rintro ⟨⟨host, hc, ht⟩, hn⟩
      exact ⟨host, hc, (hostKey_eq_iff hP).1 ⟨ht, (h.name host node hc).symm.trans hn⟩⟩
    · rintro ⟨host, hc, hl⟩
      obtain ⟨ht, hn⟩ := (hostKey_eq_iff hP).2 hl
      exact ⟨⟨host, hc, ht⟩, (h.name host node hc).trans hn⟩

theorem Indexable.of_correct {calls : List (Bytes × HostRef)} (hP : P.Caseless)
    (h : IndexTrace P calls db) {host : Bytes} (hlen : host.length ≤ 255)
    (hc : IndexCorrect P (calls ++ [(host, (addHost P host db).1)]) (addHost P host db).2) :
    Indexable P host db := by
  have hfind := (hc.lookup host (addHost P host db).1).2 ⟨host, by simp, rfl⟩
  cases hip : hostIsIpAddress P host
  · -- a name goes where lookups of it do not search, unless it was indexed there before
    simp only [Indexable, hip, Bool.false_eq_true, if_false]
    by_contra hlabel
    rw [Bool.not_eq_false] at hlabel
    have hne : getSearchTree P host ≠ 0 := by
      rw [Ne, getSearchTree_eq_zero_iff, hip]
      exact Bool.false_ne_true
    have htree : (addHost P host db).2.searchTrees (getSearchTree P host) = db.searchTrees (getSearchTree P host) := by
      simp only [addHost, hip, Bool.false_eq_true, if_false, addNamedHost, searchInsert]
      rw [Function.update_of_ne]
      rwa [getSearchTree_eq_zero_iff.2 hlabel]
    rw [findHost, htree, ← findHost, findHost_eq_some_iff h.index] at hfind
    obtain ⟨hmem, hname⟩ := hfind
    have hhead := h.index.named _ hne _ hmem
    have hmap : ∀ l : HostRef, lower (l.headD []) = (lowerRef l).headD [] := by
      intro l
      cases l <;> rfl
    have hsame : lower ((addHost P host db).1.headD []) = lower ((labels host).headD []) := by
      rw [hmap, hname, ← hmap, hostKey, hip]
      rfl
    rw [hostIsIpAddress_congr hP hsame] at hhead
    rw [take_of_length_le hlen, hhead] at hlabel
    exact Bool.false_ne_true hlabel
  · simp only [Indexable, hip, if_true]
    intro e he hp hk
    cases hf : hostForest.findChild db.hosts [] host with
    | none =>
      exact absurd (strcasecmp_eq_iff.1 hk) (KeyForest.findChild_eq_none hf he hp)
    | some e' =>
      obtain ⟨he', hp', hk'⟩ := KeyForest.findChild_eq_some hf
      have hadd : addHost P host db = (e'.ref, db) := by
        simp only [addHost, hip, if_true, addIpHost, hf]
      rw [hadd, findHost_eq_some_iff h.index] at hfind
      have hee : e = e' := by
        refine h.index.forest.eq_of_normRef he he' ?_
        have hkk : lower e.part = lower e'.part := (strcasecmp_eq_iff.1 hk).symm.trans hk'
        simp only [KeyForest.normRef, KeyForest.ref, map_cons]
        rw [show hostForest.parent e = [] from hp, hp']
        exact congrArg (fun s => [s]) hkk
      rw [hee]
      exact hfind.1

theorem run_indexTrace (hP : P.Caseless) {calls : List (Bytes × HostRef)}
    (h : (addHosts P).Run (goodAddition P) calls db) : IndexTrace P calls db := by
  refine h.traceInvariant (I := IndexTrace P) ?_ ?_
  · rintro db rfl
    exact ⟨hostIndex_empty, fun i d => by simp [Db.empty], by simp⟩
  · rintro calls ⟨host, node⟩ db db' ⟨hlen, hok⟩ hstep ih
    have := ih.add hP hlen hok
    rw [show addHost P host db = (node, db') from hstep] at this
    exact this

/-- The host index is correct as long as every host can be indexed, and the first addition of a host
that cannot breaks it. -/
theorem run_indexCorrect (hP : P.Caseless) {calls : List (Bytes × HostRef)}
    (h : (addHosts P).Run (goodAddition P) calls db) :
    IndexCorrect P calls db ∧
      ∀ host node db', host.length ≤ 255 → (addHosts P).step (host, node) db db' →
        (IndexCorrect P (calls ++ [(host, node)]) db' ↔ Indexable P host db) := by
  have ht := run_indexTrace hP h
  refine ⟨ht.correct hP, ?_⟩
  intro host node db' hlen hstep
  obtain ⟨rfl, rfl⟩ : (addHost P host db).1 = node ∧ (addHost P host db).2 = db' := by
    rw [show addHost P host db = (node, db') from hstep]
    exact ⟨rfl, rfl⟩
  exact ⟨Indexable.of_correct hP ht hlen, fun hok => (ht.add hP hlen hok).correct hP⟩

theorem run_indexCorrect_www : IndexCorrect .plain
    [(str "www.example.co", (addHost .plain (str "www.example.co") Db.empty).1)]
    (addHost .plain (str "www.example.co") Db.empty).2 := by
  have hok : Indexable .plain (str "www.example.co") Db.empty := by
    have h : hostIsIpAddress .plain (str "www.example.co") = false := by decide
    simp only [Indexable, h]
    decide
  have hr : (addHosts .plain).Run (goodAddition .plain)
      ([] ++ [(str "www.example.co", (addHost .plain (str "www.example.co") Db.empty).1)])
      (addHost .plain (str "www.example.co") Db.empty).2 :=
    .snoc (.start rfl) ⟨by decide, hok⟩ rfl
  exact (run_indexCorrect Platform.plain_caseless hr).1

/-- The first label of the host is an address: the host is filed with the addresses and looked up
among the names. -/
theorem addHost_addressLabel_lost :
    ¬ ∀ calls db, (addHosts .plain).Run (fun call _ => call.1.length ≤ 255) calls db →
      IndexCorrect .plain calls db := by
  intro h
  have hr : (addHosts .plain).Run (fun call _ => call.1.length ≤ 255)
      ([] ++ [(str "[::12].co", (addHost .plain (str "[::12].co") Db.empty).1)])
      (addHost .plain (str "[::12].co") Db.empty).2 :=
    .snoc (.start rfl) (by decide) rfl
  have hf := ((h _ _ hr).lookup (str "[::12].co") _).2 ⟨_, mem_singleton.2 rfl, rfl⟩
  have hn : (findHost .plain (str "[::12].co")
      (addHost .plain (str "[::12].co") Db.empty).2).isSome = false := by decide
  rw [hf] at hn
  cases hn

end Nami.Urldb
