import Nami.Urldb.CookieList

/-!
# The cookie lists stay intact

In every run the cookies of each path node are a doubly linked list, with one cookie per domain, path and
name (`Intact`). On the list that is in memory, the pointer operations do what `storeCookie` and
`removeCookie` do on plain lists, and they always end.
-/

namespace Nami.Urldb

open Option
open List
open Function (update update_self update_of_ne update_eq_self)
open DList

variable {P : Platform} {H H' : CookieHeap} {lists : NodeRef → List (Nat × Cookie)} {p : NodeRef}
variable {l xs ys : List (Nat × Cookie)} {now : Int} {c : Cookie} {a fuel : Nat}

/-! ## The loops -/

section Find

variable {test : Cookie → Bool}

theorem findCookie_eq (h : IsList H p (xs ++ ys)) {r : Option Nat}
    (hr : findCookie test H fuel (ys.map Prod.fst).head? = some r) :
    r = (ys.find? fun d => test d.2).map Prod.fst := by
  induction ys generalizing xs fuel with
  | nil =>
    cases fuel with
    | zero => cases hr
    | succ fuel => exact (Option.some.inj hr).symm
  | cons d ys ih =>
    cases fuel with
    | zero => cases hr
    | succ fuel =>
      obtain ⟨e, hcell, hvalue, -, hnext⟩ := h.exists_cell (mem_append_right xs mem_cons_self)
      rw [h.next_eq] at hnext
      simp only [map_cons, List.head?_cons, findCookie, hcell, hvalue, hnext] at hr
      rw [List.find?_cons]
      by_cases htest : test d.2 = true
      · rw [if_pos htest] at hr
        rw [htest]
        exact (Option.some.inj hr).symm
      · rw [if_neg htest] at hr
        rw [Bool.not_eq_true] at htest
        rw [htest]
        rw [← singleton_append, ← append_assoc] at h
        exact ih h hr

theorem findCookie_ends (h : IsList H p (xs ++ ys)) (hfuel : ys.length < fuel) :
    ∃ r, findCookie test H fuel (ys.map Prod.fst).head? = some r := by
  induction ys generalizing xs fuel with
  | nil =>
    cases fuel with
    | zero => cases hfuel
    | succ fuel => exact ⟨none, rfl⟩
  | cons d ys ih =>
    cases fuel with
    | zero => cases hfuel
    | succ fuel =>
      obtain ⟨e, hcell, -, -, hnext⟩ := h.exists_cell (mem_append_right xs mem_cons_self)
      rw [h.next_eq] at hnext
      simp only [map_cons, List.head?_cons, findCookie, hcell, hnext]
      split
      · exact ⟨_, rfl⟩
      · rw [← singleton_append, ← append_assoc] at h
        exact ih h (Nat.lt_of_succ_lt_succ hfuel)

theorem find_first (h : IsList H p l) : (∀ fuel r, findCookie test H fuel (H.first p) = some r →
      r = (l.find? fun d => test d.2).map Prod.fst) ∧
    ∀ fuel, l.length < fuel → ∃ r, findCookie test H fuel (H.first p) = some r := by
  rw [h.first_eq]
  constructor
  · intro fuel r hr
    exact @findCookie_eq H p [] l fuel test h r hr
  · intro fuel hfuel
    exact @findCookie_ends H p [] l fuel test h hfuel

end Find

/-! ## `urldb_insert_cookie` -/

/-- `storeCookie` on cookies with their addresses; the new one is at `a`. -/
def storeCell (now : Int) (c : Cookie) (a : Nat) : List (Nat × Cookie) → List (Nat × Cookie)
  | [] => [(a, c)]
  | d :: rest =>
    if sameCookie d.2 c then
      if c.expired now then rest else (a, c) :: rest
    else d :: storeCell now c a rest

theorem map_storeCell (l : List (Nat × Cookie)) :
    (storeCell now c a l).map Prod.snd = storeCookie now c (l.map Prod.snd) := by
  induction l with
  | nil => rfl
  | cons d l ih =>
    simp only [storeCell, map_cons, storeCookie]
    split
    · split <;> rfl
    · rw [map_cons, ih]

theorem storeCell_of_not (h : ∀ d ∈ l, sameCookie d.2 c = false) : storeCell now c a l = l ++ [(a, c)] := by
  induction l with
  | nil => rfl
  | cons d l ih =>
    obtain ⟨hd, hl⟩ := forall_mem_cons.1 h
    simp only [storeCell, hd, Bool.false_eq_true, if_false, ih hl, cons_append]

theorem storeCell_append_cons {d : Nat × Cookie} (hxs : ∀ x ∈ xs, sameCookie x.2 c = false)
    (hd : sameCookie d.2 c = true) : storeCell now c a (xs ++ d :: ys) =
      xs ++ if c.expired now then ys else (a, c) :: ys := by
  induction xs with
  | nil => simp only [storeCell, hd, if_true, nil_append]
  | cons x xs ih =>
    obtain ⟨hx, hxs⟩ := forall_mem_cons.1 hxs
    simp only [cons_append, storeCell, hx, Bool.false_eq_true, if_false, ih hxs]

theorem insertInList_spec (h : Lists H lists) (ha : H.cell a = none) (hH : insertInList fuel now c a p H = some H') :
    Lists H' (update lists p (storeCell now c a (lists p))) := by
  have hvalue := Heap.value_eq_none_iff.2 ha
  have hlist := h.isList p
  unfold insertInList at hH
  cases hf : findCookie (fun d => sameCookie d c) H fuel (H.first p) with
  | none =>
    rw [hf] at hH
    cases hH
  | some r =>
    have hr := (find_first hlist).1 _ _ hf
    rw [hf] at hH
    cases hfind : (lists p).find? fun d => sameCookie d.2 c with
    | none =>
      rw [hfind, map_none] at hr
      subst hr
      cases hH
      rw [storeCell_of_not fun d hd => Bool.not_eq_true _ ▸ List.find?_eq_none.1 hfind d hd, Heap.setNext_setPrev_comm]
      exact h.insertBack hvalue c
    | some d =>
      rw [hfind, map_some] at hr
      subst hr
      obtain ⟨hsame, xs, ys, hsplit, hxs⟩ := List.find?_eq_some_iff_append.1 hfind
      have hbefore : ∀ x ∈ xs, sameCookie x.2 c = false := by
        intro x hx
        simpa using hxs x hx
      obtain ⟨e, hcell, -, hprev, hnext⟩ := hlist.exists_cell (p := d) (mem_of_find?_eq_some hfind)
      simp only [hcell, map_some, Option.some.injEq] at hH
      rw [hsplit, storeCell_append_cons hbefore hsame]
      subst hH
      rw [hprev, hnext]
      split
      · exact h.unlink hsplit
      · exact h.replace hsplit hvalue c

theorem insertInList_ends (h : Lists H lists) (now : Int) (c : Cookie) (a : Nat) (p : NodeRef) :
    ∃ fuel H', insertInList fuel now c a p H = some H' := by
  have hlist := h.isList p
  obtain ⟨r, hf⟩ := (@find_first H p (lists p) (fun d => sameCookie d c) hlist).2 _ (Nat.lt_add_one _)
  have hr := (find_first hlist).1 _ _ hf
  refine ⟨(lists p).length + 1, ?_⟩
  unfold insertInList
  rw [hf]
  cases hfind : (lists p).find? fun d => sameCookie d.2 c with
  | none =>
    rw [hfind, map_none] at hr
    subst hr
    exact ⟨_, rfl⟩
  | some d =>
    rw [hfind, map_some] at hr
    subst hr
    obtain ⟨e, hcell, -⟩ := hlist.exists_cell (p := d) (mem_of_find?_eq_some hfind)
    simp only [hcell]
    exact ⟨_, rfl⟩

/-! ## `urldb_delete_cookie` -/

section Delete

variable {domain path name : Bytes} {ps : List NodeRef}

/-- Some cookies of some nodes are gone. -/
def Fewer (lists' lists : NodeRef → List (Nat × Cookie)) : Prop := ∀ p, (lists' p).Sublist (lists p)

theorem deleteFromList_spec (h : Lists H lists) {found : Bool}
    (hH : deleteFromList fuel domain path name p H = some (H', found)) :
    ∃ l : List (Nat × Cookie), l.Sublist (lists p) ∧
      l.map Prod.snd = removeCookie domain path name ((lists p).map Prod.snd) ∧
      Lists H' (update lists p l) := by
  have hlist := h.isList p
  unfold deleteFromList at hH
  cases hf : findCookie (fun c => c.domain == domain && c.path == path && c.name == name) H fuel (H.first p) with
  | none =>
    rw [hf] at hH
    cases hH
  | some r =>
    have hr := (find_first hlist).1 _ _ hf
    rw [hf] at hH
    cases hfind : (lists p).find? fun d => d.2.domain == domain && d.2.path == path && d.2.name == name with
    | none =>
      rw [hfind, map_none] at hr
      subst hr
      cases hH
      refine ⟨lists p, List.Sublist.refl _, ?_, ?_⟩
      · rw [removeCookie, eraseP_of_forall_not]
        intro c hc
        obtain ⟨d, hd, rfl⟩ := mem_map.1 hc
        exact List.find?_eq_none.1 hfind d hd
      · rwa [update_eq_self]
    | some d =>
      rw [hfind, map_some] at hr
      subst hr
      obtain ⟨hsame, xs, ys, hsplit, hxs⟩ := List.find?_eq_some_iff_append.1 hfind
      obtain ⟨e, hcell, -, hprev, hnext⟩ := hlist.exists_cell (p := d) (mem_of_find?_eq_some hfind)
      simp only [hcell, map_some, Option.some.injEq, Prod.mk.injEq] at hH
      obtain ⟨rfl, -⟩ := hH
      refine ⟨xs ++ ys, ?_, ?_, ?_⟩
      · rw [hsplit]
        exact List.Sublist.append_left (sublist_cons_self d ys) xs
      · rw [hsplit, removeCookie, map_append, map_append, map_cons, eraseP_append_right]
        · rw [eraseP_cons, hsame, cond_true]
        · intro c hc
          obtain ⟨x, hx, rfl⟩ := mem_map.1 hc
          have hnot := hxs x hx
          rw [Bool.not_eq_true'] at hnot
          rw [hnot]
          exact Bool.false_ne_true
      · rw [hprev, hnext, Heap.setNext_setPrev_comm]
        exact h.unlink hsplit

theorem deleteFromList_ends (h : Lists H lists) (domain path name : Bytes) (p : NodeRef)
    (hfuel : (lists p).length < fuel) : ∃ r, deleteFromList fuel domain path name p H = some r := by
  have hlist := h.isList p
  obtain ⟨r, hf⟩ := (@find_first H p (lists p) (fun c => c.domain == domain && c.path == path &&
    c.name == name) hlist).2 _ hfuel
  have hr := (find_first hlist).1 _ _ hf
  unfold deleteFromList
  rw [hf]
  cases hfind : (lists p).find? fun d => d.2.domain == domain && d.2.path == path && d.2.name == name with
  | none =>
    rw [hfind, map_none] at hr
    subst hr
    exact ⟨_, rfl⟩
  | some d =>
    rw [hfind, map_some] at hr
    subst hr
    obtain ⟨e, hcell, -⟩ := hlist.exists_cell (p := d) (mem_of_find?_eq_some hfind)
    simp only [hcell]
    exact ⟨_, rfl⟩

theorem deleteFromList_value {found : Bool} {x : Nat}
    (hH : deleteFromList fuel domain path name p H = some (H', found)) (hx : H.value x = none) :
    H'.value x = none := by
  unfold deleteFromList at hH
  cases hf : findCookie (fun c => c.domain == domain && c.path == path && c.name == name) H fuel (H.first p) with
  | none =>
    rw [hf] at hH
    cases hH
  | some r =>
    rw [hf] at hH
    cases r with
    | none =>
      cases hH
      exact hx
    | some a =>
      obtain ⟨e, -, he⟩ := map_eq_some_iff.1 hH
      cases he
      apply Heap.value_free_eq_none
      rwa [Heap.value_setPrev, Heap.value_setNext]

theorem fewer_refl (lists : NodeRef → List (Nat × Cookie)) : Fewer lists lists := fun _ => List.Sublist.refl _

theorem fewer_update (hl : l.Sublist (lists p)) : Fewer (update lists p l) lists := by
  intro q
  by_cases hq : q = p
  · subst hq
    rwa [update_self]
  · rw [update_of_ne hq]

theorem deleteFromLists_spec (h : Lists H lists) (hH : deleteFromLists fuel domain path name ps H = some H') :
    (∀ x, H.value x = none → H'.value x = none) ∧ ∃ lists', Lists H' lists' ∧ Fewer lists' lists := by
  induction ps generalizing H lists with
  | nil =>
    cases hH
    exact ⟨fun _ hx => hx, lists, h, fewer_refl lists⟩
  | cons p ps ih =>
    unfold deleteFromLists at hH
    cases hdel : deleteFromList fuel domain path name p H with
    | none =>
      rw [hdel] at hH
      cases hH
    | some r =>
      obtain ⟨H₁, found⟩ := r
      obtain ⟨l, hsub, -, h₁⟩ := deleteFromList_spec h hdel
      have hfewer := fewer_update hsub
      have hvalue : ∀ x, H.value x = none → H₁.value x = none := fun x => deleteFromList_value hdel
      rw [hdel] at hH
      cases found with
      | true =>
        cases hH
        exact ⟨hvalue, _, h₁, hfewer⟩
      | false =>
        obtain ⟨hvalue', lists', h', hfewer'⟩ := ih h₁ hH
        exact ⟨fun x hx => hvalue' x (hvalue x hx), lists', h', fun q => (hfewer' q).trans (hfewer q)⟩

theorem deleteFromLists_ends (h : Lists H lists) (hfuel : ∀ p ∈ ps, (lists p).length < fuel) :
    ∃ H', deleteFromLists fuel domain path name ps H = some H' := by
  induction ps generalizing H lists with
  | nil => exact ⟨H, rfl⟩
  | cons p ps ih =>
    obtain ⟨hp, hps⟩ := forall_mem_cons.1 hfuel
    obtain ⟨⟨H₁, found⟩, hdel⟩ := deleteFromList_ends h domain path name p hp
    obtain ⟨l, hsub, -, h₁⟩ := deleteFromList_spec h hdel
    unfold deleteFromLists
    rw [hdel]
    cases found with
    | true => exact ⟨H₁, rfl⟩
    | false =>
      apply ih h₁
      intro q hq
      exact Nat.lt_of_le_of_lt (fewer_update hsub q).length_le (hps q hq)

theorem deleteFromHosts_spec {hosts : List HostPart} (h : Lists H lists)
    (hH : hosts.foldlM (fun H e => deleteFromLists fuel domain path name e.places H) H = some H') :
    (∀ x, H.value x = none → H'.value x = none) ∧ ∃ lists', Lists H' lists' ∧ Fewer lists' lists := by
  induction hosts generalizing H lists with
  | nil =>
    cases hH
    exact ⟨fun _ hx => hx, lists, h, fewer_refl lists⟩
  | cons e hosts ih =>
    rw [foldlM_cons, bind_eq_bind, bind_eq_some_iff] at hH
    obtain ⟨H₁, hdel, hH⟩ := hH
    obtain ⟨hvalue, lists₁, h₁, hfewer⟩ := deleteFromLists_spec h hdel
    obtain ⟨hvalue', lists', h', hfewer'⟩ := ih h₁ hH
    exact ⟨fun x hx => hvalue' x (hvalue x hx), lists', h', fun q => (hfewer' q).trans (hfewer q)⟩

theorem deleteFromHosts_ends {hosts : List HostPart} (h : Lists H lists)
    (hfuel : ∀ e ∈ hosts, ∀ p ∈ e.places, (lists p).length < fuel) :
    ∃ H', hosts.foldlM (fun H e => deleteFromLists fuel domain path name e.places H) H = some H' := by
  induction hosts generalizing H lists with
  | nil => exact ⟨H, rfl⟩
  | cons e hosts ih =>
    obtain ⟨he, hhosts⟩ := forall_mem_cons.1 hfuel
    obtain ⟨H₁, hdel⟩ := @deleteFromLists_ends H lists fuel domain path name e.places h he
    obtain ⟨-, lists₁, h₁, hfewer⟩ := deleteFromLists_spec h hdel
    rw [foldlM_cons, hdel]
    refine ih h₁ fun e' he' p hp => ?_
    exact Nat.lt_of_le_of_lt (hfewer p).length_le (hhosts e' he' p hp)

theorem exists_bound (f : NodeRef → Nat) (ps : List NodeRef) : ∃ n, ∀ p ∈ ps, f p < n := by
  induction ps with
  | nil => exact ⟨0, fun p hp => absurd hp not_mem_nil⟩
  | cons p ps ih =>
    obtain ⟨n, hn⟩ := ih
    refine ⟨n + f p + 1, fun q hq => ?_⟩
    rcases mem_cons.1 hq with rfl | hq
    · omega
    · have := hn q hq
      omega

end Delete

/-! ## Runs -/

/-- The lists of the nodes, with one cookie per domain, path and name in each. From some address on the
memory is not in use. -/
structure Intact (H : CookieHeap) (lists : NodeRef → List (Nat × Cookie)) : Prop where
  isLists : Lists H lists
  unique : ∀ p, (lists p).Pairwise fun x y => sameCookie x.2 y.2 = false
  bounded : ∃ n, ∀ a, n ≤ a → H.value a = none

theorem intact_empty : Intact Heap.empty fun _ => [] := ⟨lists_empty, fun _ => List.Pairwise.nil, 0, fun _ _ => rfl⟩

theorem storeCell_unique (h : l.Pairwise fun x y => sameCookie x.2 y.2 = false) :
    (storeCell now c a l).Pairwise fun x y => sameCookie x.2 y.2 = false := by
  have hmap : ∀ l : List (Nat × Cookie), (l.Pairwise fun x y => sameCookie x.2 y.2 = false) ↔
      (l.map Prod.snd).Pairwise fun x y => sameCookie x y = false := by
    intro l
    rw [pairwise_map]
  rw [hmap] at h ⊢
  rw [map_storeCell]
  exact storeCookie_unique h

theorem insertInList_value {x : Nat} (hH : insertInList fuel now c a p H = some H') (hxa : x ≠ a)
    (hx : H.value x = none) : H'.value x = none := by
  unfold insertInList at hH
  cases hf : findCookie (fun d => sameCookie d c) H fuel (H.first p) with
  | none =>
    rw [hf] at hH
    cases hH
  | some r =>
    rw [hf] at hH
    cases r with
    | none =>
      cases hH
      rwa [Heap.value_setPrev, Heap.value_setNext, Heap.value_alloc_of_ne hxa]
    | some d =>
      obtain ⟨e, -, rfl⟩ := map_eq_some_iff.1 hH
      split
      · apply Heap.value_free_eq_none
        rwa [Heap.value_setNext, Heap.value_setPrev]
      · apply Heap.value_free_eq_none
        rwa [Heap.value_setNext, Heap.value_setPrev, Heap.value_alloc_of_ne hxa]

theorem Intact.insertInList (h : Intact H lists) (ha : H.cell a = none) (hH : insertInList fuel now c a p H = some H') :
    Intact H' (update lists p (storeCell now c a (lists p))) := by
  obtain ⟨n, hn⟩ := h.bounded
  refine ⟨insertInList_spec h.isLists ha hH, fun q => ?_, n + a + 1, fun x hx => ?_⟩
  · by_cases hq : q = p
    · subst hq
      rw [update_self]
      exact storeCell_unique (h.unique q)
    · rw [update_of_ne hq]
      exact h.unique q
  · exact insertInList_value hH (by omega) (hn x (by omega))

theorem Intact.deleteCookie {s s' : PtrDb} {domain path name : Bytes} (h : Intact s.heap lists)
    (hs : s.deleteCookie fuel domain path name = some s') : ∃ lists', Intact s'.heap lists' := by
  obtain ⟨n, hn⟩ := h.bounded
  obtain ⟨H', hH, rfl⟩ := map_eq_some_iff.1 hs
  obtain ⟨hvalue, lists', h', hfewer⟩ := deleteFromHosts_spec h.isLists hH
  exact ⟨lists', h', fun p => (h.unique p).sublist (hfewer p), n, fun a ha => hvalue a (hn a ha)⟩

theorem Intact.inserts {scheme : Bytes} {url : Nsurl} {cs : List Cookie} {s s' : PtrDb}
    (h : Intact s.heap lists) (hs : Inserts P now scheme url cs s s') :
    ∃ lists', Intact s'.heap lists' := by
  induction hs generalizing lists with
  | nil => exact ⟨lists, h⟩
  | cons ha hins _ ih =>
    obtain ⟨H', hH, rfl⟩ := map_eq_some_iff.1 hins
    exact ih (h.insertInList ha hH)

theorem Call.PtrStep.intact {op : Call} {s s' : PtrDb} (hs : Call.PtrStep P op s s')
    (h : ∃ lists, Intact s.heap lists) : ∃ lists, Intact s'.heap lists := by
  obtain ⟨lists, h⟩ := h
  cases hs with
  | addUrl _ => exact ⟨lists, h⟩
  | getCookie _ => exact ⟨lists, h⟩
  | setCookie _ hins => exact h.inserts hins
  | loadCookie hins => exact h.inserts hins
  | deleteCookie hdel => exact h.deleteCookie hdel

theorem run_intact {ops : List Call} {s : PtrDb} (hr : (ptrCalls P).AnyRun ops s) : ∃ lists, Intact s.heap lists := by
  apply hr.invariant
  · rintro s rfl
    exact ⟨_, intact_empty⟩
  · exact fun op s s' _ hs h => Call.PtrStep.intact hs h

/-! ### Every run of the database is one of its pointers -/

theorem Inserts.db {scheme : Bytes} {url : Nsurl} {cs : List Cookie} {s s' : PtrDb}
    (hs : Inserts P now scheme url cs s s') :
    s'.db = cs.foldl (fun db c => Urldb.insertCookie P now c scheme url db) s.db := by
  induction hs with
  | nil => rfl
  | cons _ hins _ ih =>
    obtain ⟨H', -, rfl⟩ := map_eq_some_iff.1 hins
    exact ih

theorem Intact.exists_inserts (h : Intact H lists) (scheme : Bytes) (url : Nsurl) (cs : List Cookie)
    (db : Db) : ∃ s', Inserts P now scheme url cs { db, heap := H } s' := by
  induction cs generalizing H lists db with
  | nil => exact ⟨_, .nil⟩
  | cons c cs ih =>
    obtain ⟨n, hn⟩ := h.bounded
    have ha : H.cell n = none := Heap.value_eq_none_iff.1 (hn n (Nat.le_refl n))
    obtain ⟨fuel, H', hH⟩ := insertInList_ends h.isLists now c n (cookiePlace P c scheme url db)
    obtain ⟨s', hs'⟩ := ih (h.insertInList ha hH) (Urldb.insertCookie P now c scheme url db)
    have hins : PtrDb.insertCookie P fuel now c n scheme url { db, heap := H } =
        some { db := Urldb.insertCookie P now c scheme url db, heap := H' } := by
      unfold PtrDb.insertCookie
      rw [hH]
      rfl
    exact ⟨s', .cons ha hins hs'⟩

theorem Intact.exists_deleteCookie (h : Intact H lists) (domain path name : Bytes) (db : Db) :
    ∃ fuel s', PtrDb.deleteCookie fuel domain path name { db, heap := H } = some s' := by
  obtain ⟨n, hn⟩ := exists_bound (fun p => (lists p).length) (db.hosts.flatMap HostPart.places)
  have hfuel : ∀ e ∈ db.hosts, ∀ p ∈ e.places, (lists p).length < n := fun e he p hp =>
    hn p (mem_flatMap_of_mem he hp)
  obtain ⟨H', hH⟩ := @deleteFromHosts_ends H lists n domain path name db.hosts h.isLists hfuel
  refine ⟨n, { db := Urldb.deleteCookie domain path name db, heap := H' }, ?_⟩
  unfold PtrDb.deleteCookie
  rw [hH]
  rfl

theorem Intact.exists_ptrStep {op : Call} {s : PtrDb} {db : Db} (h : Intact s.heap lists)
    (hs : Call.Step P op s.db db) : ∃ s', Call.PtrStep P op s s' ∧ s'.db = db := by
  cases hs with
  | addUrl hadd => exact ⟨_, .addUrl hadd, rfl⟩
  | getCookie hget => exact ⟨_, .getCookie hget, rfl⟩
  | @setCookie now header url referer ok _ _ hset =>
    obtain ⟨s', hs'⟩ : ∃ s', Inserts P now (url.components.scheme.getD []) (Nsurl.defragment P url)
        (storedCookies P now header url referer) s s' := h.exists_inserts _ _ _ s.db
    refine ⟨s', .setCookie hset hs', ?_⟩
    rw [hs'.db, setCookie_eq_insertCookies hset]
    rfl
  | @deleteCookie domain path name =>
    obtain ⟨fuel, s', hs'⟩ := h.exists_deleteCookie domain path name s.db
    refine ⟨s', .deleteCookie hs', ?_⟩
    obtain ⟨H', -, rfl⟩ := map_eq_some_iff.1 hs'
    rfl
  | @loadCookie now c scheme url =>
    obtain ⟨s', hs'⟩ : ∃ s', Inserts P now scheme url [c] s s' := h.exists_inserts _ _ _ s.db
    exact ⟨s', .loadCookie hs', hs'.db⟩

theorem exists_ptrRun {ops : List Call} {db : Db} (hr : (calls P).AnyRun ops db) :
    ∃ s, (ptrCalls P).AnyRun ops s ∧ s.db = db := by
  induction hr with
  | start hi =>
    obtain rfl : _ = Db.empty := hi
    exact ⟨PtrDb.empty, .start rfl, rfl⟩
  | snoc _ _ hs ih =>
    obtain ⟨s, hr, rfl⟩ := ih
    obtain ⟨lists, h⟩ := run_intact hr
    obtain ⟨s', hs', rfl⟩ := h.exists_ptrStep hs
    exact ⟨s', .snoc hr trivial hs', rfl⟩

/-! ## What a stored cookie does to its list -/

/-- The list after a cookie is stored at `a`: it takes the place of the cookie of its domain, path and
name; when it has expired, just that one is gone. -/
structure StoredInto (now : Int) (c : Cookie) (a : Nat) (l l' : List (Nat × Cookie)) : Prop where
  replaced : ∀ xs d ys, l = xs ++ d :: ys → sameCookie d.2 c = true → c.expired now = false →
    l' = xs ++ (a, c) :: ys
  removed : ∀ xs d ys, l = xs ++ d :: ys → sameCookie d.2 c = true → c.expired now = true →
    l' = xs ++ ys
  added : (∀ d ∈ l, sameCookie d.2 c = false) → l' = l ++ [(a, c)]

theorem storedInto (h : l.Pairwise fun x y => sameCookie x.2 y.2 = false) :
    StoredInto now c a l (storeCell now c a l) := by
  have hbefore : ∀ xs d ys, l = xs ++ d :: ys → sameCookie d.2 c = true → ∀ x ∈ xs, sameCookie x.2 c = false := by
    rintro xs d ys rfl hd x hx
    have hxd := (pairwise_append.1 h).2.2 x hx d mem_cons_self
    cases hxc : sameCookie x.2 c with
    | false => rfl
    | true =>
      rw [sameCookie_congr hxc] at hxd
      rw [sameCookie_iff] at hd
      rw [← hxd, sameCookie_iff.2 hd.symm]
  refine ⟨?_, ?_, storeCell_of_not⟩
  · rintro xs d ys rfl hd hc
    rw [storeCell_append_cons (hbefore xs d ys rfl hd) hd, hc]
    rfl
  · rintro xs d ys rfl hd hc
    rw [storeCell_append_cons (hbefore xs d ys rfl hd) hd, hc]
    rfl

/-- The cookies of each path node are a well-formed doubly linked list with one cookie per domain, path and
name. Storing a cookie ends; it leaves the lists of the other nodes as they are, and that of its own well
formed and as `StoredInto` says. -/
def CookieListsIntact (H : CookieHeap) : Prop :=
  ∃ lists : NodeRef → List (Nat × Cookie),
    (∀ p, WellLinked H p (lists p) ∧
      (lists p).Pairwise fun x y => sameCookie x.2 y.2 = false) ∧
    ∀ now c a p, H.cell a = none →
      (∃ fuel H', insertInList fuel now c a p H = some H') ∧
      ∀ fuel H', insertInList fuel now c a p H = some H' →
        (∀ q, q ≠ p → WellLinked H' q (lists q)) ∧
        ∃ l', WellLinked H' p l' ∧ StoredInto now c a (lists p) l'

theorem Intact.cookieListsIntact (h : Intact H lists) : CookieListsIntact H := by
  refine ⟨lists, fun p => ⟨(h.isLists.isList p).wellLinked, h.unique p⟩, fun now c a p ha => ?_⟩
  refine ⟨insertInList_ends h.isLists now c a p, fun fuel H' hH => ?_⟩
  have h' := insertInList_spec h.isLists ha hH
  refine ⟨fun q hq => ?_, storeCell now c a (lists p), ?_, storedInto (h.unique p)⟩
  · have hlist := (h'.isList q).wellLinked
    rwa [update_of_ne hq] at hlist
  · have hlist := (h'.isList p).wellLinked
    rwa [update_self] at hlist

/-- In every reachable database the cookie lists are intact. -/
theorem run_cookieLists {ops : List Call} {s : PtrDb} (hr : (ptrCalls P).AnyRun ops s) :
    CookieListsIntact s.heap := by
  obtain ⟨lists, h⟩ := run_intact hr
  exact h.cookieListsIntact

theorem run_cookieLists_header : ∃ ops s, (ptrCalls .plain).AnyRun ops s ∧
    (s.db.hosts.any fun e => e.nodes.any fun p => p.cookies ≠ []) = true ∧
    CookieListsIntact s.heap := by
  obtain ⟨url, -, hset⟩ := Nsurl.exists_ok_of_any
    (x := Nsurl.create .plain (fun _ => 0) (str "http://h.co/"))
    (p := fun url => (setCookie .plain 0 (str "a=b") url none Db.empty).any fun r =>
      r.1.hosts.any fun e => e.nodes.any fun p => p.cookies ≠ []) (by decide +kernel)
  obtain ⟨⟨db, ok⟩, hset, hstored⟩ := exists_some_of_any hset
  obtain ⟨s, hr, rfl⟩ := exists_ptrRun (.snoc (.start rfl) trivial (.setCookie hset))
  exact ⟨_, s, hr, hstored, run_cookieLists hr⟩

end Nami.Urldb
