import Nami.Urldb.Verify.Entries

/-!
# What `urldb_delete_cookie` deletes

The walk of a host ends at the first cookie of the domain, path and name, and a host can have one for each scheme. The
walk finds a cookie wherever it is, so that a deletion is complete when no host has two.
-/

namespace Nami.Urldb

open List

variable {P : Platform} {db db' : Db} {e : HostPart} {nodes : List PathData} {domain path name : Bytes}
variable {l : List Cookie}

/-! ## Path trees -/

/-- The path nodes of every host are a tree. -/
structure PathTrees (db : Db) : Prop where
  tree : ∀ e ∈ db.hosts, PathTree e.nodes

theorem PathTrees.at (h : PathTrees db) (r : HostRef) : PathTree (db.nodes r) := by
  unfold Db.nodes
  cases he : db.host r with
  | none => exact pathTree_nil
  | some e => exact h.tree e (mem_of_host he).1

theorem PathTrees.modifyHost {f : HostPart → HostPart} (h : PathTrees db) (r : HostRef)
    (hf : ∀ e, PathTree e.nodes → PathTree (f e).nodes) : PathTrees (db.modifyHost r f) := by
  refine ⟨fun e' he' => ?_⟩
  obtain ⟨e, he, rfl⟩ := mem_map.1 he'
  split
  · exact hf e (h.tree e he)
  · exact h.tree e he

theorem PathTrees.addPath (h : PathTrees db) (scheme : Bytes) (port : UInt32) (r : HostRef) (pathQuery : Bytes)
    (fragment : Option Bytes) (url : Nsurl) : PathTrees (db.addPath P scheme port r pathQuery fragment url).2 :=
  h.modifyHost r fun _ _ => (addPath_spec P scheme port pathQuery fragment url (h.at r)).2.tree

theorem PathTrees.addHost (h : PathTrees db) (host : Bytes) : PathTrees (addHost P host db).2 := by
  have hfresh {hosts : List HostPart} {k : Bytes} {d : HostRef} (hh : ∀ e ∈ hosts, PathTree e.nodes) :
      ∀ e ∈ hostForest.place (hostForest.fresh k d) hosts, PathTree e.nodes := by
    intro e he
    rcases KeyForest.mem_place.1 he with rfl | he
    · exact pathTree_nil
    · exact hh e he
  unfold Urldb.addHost
  split
  · unfold addIpHost
    split
    · exact h
    · exact ⟨hfresh h.tree⟩
  · exact ⟨KeyForest.descend_induction (I := fun hosts : List HostPart => ∀ e ∈ hosts, PathTree e.nodes) _ h.tree
      fun k d hosts => hfresh⟩

theorem PathTrees.addUrl (h : PathTrees db) (url : Nsurl) : PathTrees (addUrl P url db).1 := by
  have hbloom : PathTrees (addToBloom url db) := ⟨h.tree⟩
  unfold Urldb.addUrl
  split
  · exact (hbloom.addHost _).addPath ..
  · exact hbloom

theorem PathTrees.insertCookie (h : PathTrees db) (now : Int) (c : Cookie) (scheme : Bytes) (url : Nsurl) :
    PathTrees (insertCookie P now c scheme url db) := by
  have hhost (host : Bytes) : PathTrees (findOrAddHost P host db).2 := by
    unfold findOrAddHost
    split
    · exact h
    · exact h.addHost host
  unfold Urldb.insertCookie
  split
  · exact (hhost _).modifyHost _ fun _ he => he
  · refine ((hhost _).addPath ..).modifyHost _ fun e he => ?_
    exact he.map ((keepsNode_cookies (storeCookie now c)).at _)

theorem PathTrees.deleteCookie (h : PathTrees db) (domain path name : Bytes) :
    PathTrees (deleteCookie domain path name db) := by
  refine ⟨fun e' he' => ?_⟩
  obtain ⟨e, he, rfl⟩ := mem_map.1 he'
  exact (deleteCookiePaths_spec (h.tree e he) domain path name).1

theorem PathTrees.step {op : Call} (h : PathTrees db) (hstep : Call.Step P op db db') : PathTrees db' := by
  cases hstep with
  | @addUrl url _ _ _ hadd =>
    have htrees := h.addUrl (P := P) url
    rwa [hadd] at htrees
  | setCookie hset =>
    rw [setCookie_eq_insertCookies hset]
    unfold insertCookies
    exact List.foldlRecOn _ _ h fun db hdb c _ => hdb.insertCookie ..
  | @getCookie _ url _ _ _ _ hget =>
    obtain rfl := congrArg Prod.fst hget
    exact h.addUrl url
  | deleteCookie => exact h.deleteCookie ..
  | loadCookie => exact h.insertCookie ..

theorem pathTrees_of_reachable (h : Reachable P db) : PathTrees db := by
  obtain ⟨ops, hr⟩ := h
  apply hr.invariant
  · rintro db rfl
    exact ⟨fun e he => absurd he not_mem_nil⟩
  · intro op db db' _ hstep h
    exact h.step hstep

/-! ## The walk -/

theorem PathTree.mem_preorder_append (h : PathTree nodes) {p : PathData} (hp : p ∈ nodes) {a d : PathRef}
    (href : p.ref = a ++ d) (ha : a ≠ []) {depth : Nat} (hdepth : a.length ≤ depth) : p ∈ preorder nodes depth d := by
  induction depth generalizing a d with
  | zero => exact absurd (length_eq_zero_iff.mp (Nat.le_zero.mp hdepth)) ha
  | succ depth ih =>
    have hsplit : a ++ d = a.dropLast ++ a.getLast ha :: d := by
      conv_lhs => rw [← dropLast_append_getLast ha]
      exact append_assoc ..
    have hsuffix : a.getLast ha :: d <:+ p.ref := ⟨a.dropLast, by rw [href, hsplit]⟩
    obtain ⟨q, hq, hqref⟩ := h.isTree.of_suffix ⟨p, hp, rfl⟩ hsuffix (cons_ne_nil _ _)
    rw [preorder, mem_flatMap]
    refine ⟨q, mem_children.mpr ⟨hq, (List.cons.inj hqref).2⟩, ?_⟩
    by_cases hnil : a.dropLast = []
    · refine mem_cons.mpr (.inl (h.eq_of_ref hp hq ?_))
      rw [href, hsplit, hnil, hqref]
      rfl
    · refine mem_cons_of_mem _ (ih (href.trans ?_) hnil ?_)
      · rw [hsplit, hqref]
      · rw [length_dropLast]
        omega

theorem PathTree.mem_preorder (h : PathTree nodes) {p : PathData} (hp : p ∈ nodes) :
    p ∈ preorder nodes nodes.length [] :=
  h.mem_preorder_append hp (append_nil _).symm (cons_ne_nil _ _) (h.length_le ⟨p, hp, rfl⟩)

/-! ## What is deleted -/

/-- The cookie that is to be deleted. -/
def isCookie (domain path name : Bytes) (c : Cookie) : Bool := c.domain == domain && c.path == path && c.name == name

/-- A node without the cookies that pass a test. -/
def PathData.without (test : Cookie → Bool) (p : PathData) : PathData :=
  { p with cookies := p.cookies.filter (!test ·) }

/-- A host without the cookies that pass a test; the others keep their order. -/
def HostPart.without (test : Cookie → Bool) (e : HostPart) : HostPart :=
  { e with cookies := e.cookies.filter (!test ·), nodes := e.nodes.map (·.without test) }

/-- The cookies of the nodes of a host. -/
def HostPart.allCookies (e : HostPart) : List Cookie := e.cookies ++ e.nodes.flatMap (·.cookies)

variable {test : Cookie → Bool}

theorem filter_eq_self_iff_countP : l.filter (!test ·) = l ↔ l.countP test = 0 := by
  rw [filter_eq_self, countP_eq_zero]
  simp

theorem eraseP_eq_filter_iff : l.eraseP test = l.filter (!test ·) ↔ l.countP test ≤ 1 := by
  induction l with
  | nil => simp
  | cons c l ih =>
    by_cases hc : test c = true
    · rw [eraseP_cons_of_pos hc, filter_cons_of_neg (by simp [hc]), countP_cons_of_pos hc,
        Nat.succ_le_succ_iff, Nat.le_zero, ← filter_eq_self_iff_countP, eq_comm]
    · rw [eraseP_cons_of_neg hc, filter_cons_of_pos (by simp [hc]), countP_cons_of_neg hc, ← ih]
      simp

theorem map_without_eq_self_iff : nodes.map (·.without test) = nodes ↔ (nodes.flatMap (·.cookies)).countP test = 0 := by
  have hself : nodes.map (·.without test) = nodes ↔ ∀ p ∈ nodes, p.without test = p := by
    conv_lhs => rhs; rw [← map_id nodes]
    exact map_inj_left
  have hnode (p : PathData) : p.without test = p ↔ p.cookies.filter (!test ·) = p.cookies := by
    constructor
    · exact congrArg PathData.cookies
    · intro h
      unfold PathData.without
      rw [h]
  rw [hself, countP_eq_zero]
  simp only [hnode, filter_eq_self_iff_countP, countP_eq_zero, mem_flatMap]
  exact ⟨fun h c ⟨p, hp, hc⟩ => h p hp c hc, fun h p hp c hc => h c ⟨p, hp, hc⟩⟩

theorem any_iff_countP_pos : l.any test = true ↔ 0 < l.countP test := by
  rw [any_eq_true, countP_pos_iff]

theorem modifyPath_append_cons {xs ys : List PathData} {p : PathData} (f : PathData → PathData)
    (h : ∀ q ∈ xs ++ ys, q.ref ≠ p.ref) : modifyPath p.ref f (xs ++ p :: ys) = xs ++ f p :: ys := by
  have hother {l : List PathData} (hl : ∀ q ∈ l, q.ref ≠ p.ref) :
      l.map (fun q => if q.ref = p.ref then f q else q) = l := by
    rw [map_congr_left fun q hq => if_neg (hl q hq)]
    exact map_id' l
  unfold modifyPath
  rw [map_append, map_cons, if_pos rfl, hother fun q hq => h q (mem_append_left _ hq),
    hother fun q hq => h q (mem_append_right _ hq)]

theorem modifyPath_eq_without_iff (h : PathTree nodes) {p : PathData} (hp : p ∈ nodes)
    (hpos : 0 < p.cookies.countP test) :
    modifyPath p.ref (fun p => { p with cookies := p.cookies.eraseP test }) nodes = nodes.map (·.without test) ↔
      (nodes.flatMap (·.cookies)).countP test ≤ 1 := by
  obtain ⟨xs, ys, rfl⟩ := append_of_mem hp
  have hother : ∀ q ∈ xs ++ ys, q.ref ≠ p.ref := by
    intro q hq href
    have hnd := (List.Nodup.of_map _ h.forest.distinct : (xs ++ p :: ys).Nodup)
    rw [nodup_middle] at hnd
    have hqp : q = p := by
      refine h.eq_of_ref ?_ hp href
      rw [mem_append, mem_cons]
      exact (mem_append.mp hq).imp_right .inr
    exact (nodup_cons.mp hnd).1 (hqp ▸ hq)
  rw [modifyPath_append_cons _ hother, map_append, map_cons, flatMap_append, flatMap_cons,
    countP_append, countP_append]
  have hxs := @map_without_eq_self_iff xs test
  have hys := @map_without_eq_self_iff ys test
  have hself : ({ p with cookies := p.cookies.eraseP test } : PathData) = p.without test ↔
      p.cookies.countP test ≤ 1 := by
    rw [← eraseP_eq_filter_iff]
    constructor
    · exact congrArg PathData.cookies
    · intro heq
      unfold PathData.without
      rw [heq]
  have hparts : xs ++ ({ p with cookies := p.cookies.eraseP test } : PathData) :: ys =
      xs.map (·.without test) ++ p.without test :: ys.map (·.without test) ↔
      xs = xs.map (·.without test) ∧ { p with cookies := p.cookies.eraseP test } = p.without test ∧
        ys = ys.map (·.without test) := by
    constructor
    · intro heq
      obtain ⟨h₁, h₂⟩ := append_inj heq (length_map _).symm
      exact ⟨h₁, List.cons.inj h₂⟩
    · rintro ⟨h₁, h₂, h₃⟩
      rw [← h₁, h₂, ← h₃]
  rw [hparts, eq_comm, hxs, hself, @eq_comm _ ys, hys]
  omega

theorem deleteCookiePaths_eq : deleteCookiePaths domain path name e =
    if e.cookies.any (isCookie domain path name) then
      { e with cookies := e.cookies.eraseP (isCookie domain path name) }
    else
      match (preorder e.nodes e.nodes.length []).find? fun p => p.cookies.any (isCookie domain path name) with
      | some p =>
        let remove (p : PathData) := { p with cookies := p.cookies.eraseP (isCookie domain path name) }
        { e with nodes := modifyPath p.ref remove e.nodes }
      | none => e := rfl

theorem deleteCookiePaths_eq_without_iff (h : PathTree e.nodes) : deleteCookiePaths domain path name e =
    e.without (isCookie domain path name) ↔ e.allCookies.countP (isCookie domain path name) ≤ 1 := by
  have heq {cookies : List Cookie} {nodes : List PathData} : { e with cookies, nodes } =
      e.without (isCookie domain path name) ↔ cookies = e.cookies.filter (!isCookie domain path name ·) ∧
        nodes = e.nodes.map (·.without (isCookie domain path name)) := by
    constructor
    · intro h
      exact ⟨congrArg HostPart.cookies h, congrArg HostPart.nodes h⟩
    · rintro ⟨rfl, rfl⟩
      rfl
  have hnodes := @map_without_eq_self_iff e.nodes (isCookie domain path name)
  have hcookies := @filter_eq_self_iff_countP e.cookies (isCookie domain path name)
  rw [deleteCookiePaths_eq, HostPart.allCookies, countP_append]
  split
  · next hfound =>
    have hpos := any_iff_countP_pos.mp hfound
    rw [heq, eraseP_eq_filter_iff, @eq_comm _ e.nodes, hnodes]
    omega
  · next hnot =>
    have hzero : e.cookies.countP (isCookie domain path name) = 0 := by
      by_contra hne
      exact hnot (any_iff_countP_pos.mpr (Nat.pos_of_ne_zero hne))
    split
    · next p hfind =>
      have hp := mem_preorder (mem_of_find?_eq_some hfind)
      have hany : p.cookies.any (isCookie domain path name) = true := by
        have htest := List.find?_some hfind
        exact htest
      have hpos := any_iff_countP_pos.mp hany
      rw [heq, @eq_comm _ e.cookies, hcookies, modifyPath_eq_without_iff h hp hpos]
      omega
    · next hfind =>
      have hnone : (e.nodes.flatMap (·.cookies)).countP (isCookie domain path name) = 0 := by
        rw [countP_eq_zero]
        intro c hc htest
        obtain ⟨p, hp, hc⟩ := mem_flatMap.mp hc
        exact List.find?_eq_none.mp hfind p (h.mem_preorder hp) (any_eq_true.mpr ⟨c, hc, htest⟩)
      refine iff_of_true (heq.mpr ⟨?_, ?_⟩) (by omega)
      · exact (hcookies.mpr hzero).symm
      · exact (hnodes.mpr hnone).symm

/-- A deletion is complete, and leaves everything else as it is, when no host has two cookies of the domain, path and
name. -/
theorem deleteCookie_complete_iff (h : Reachable P db) (domain path name : Bytes) :
    (deleteCookie domain path name db).hosts = db.hosts.map (·.without (isCookie domain path name)) ↔
      ∀ e ∈ db.hosts, e.allCookies.countP (isCookie domain path name) ≤ 1 := by
  have htrees := pathTrees_of_reachable h
  change db.hosts.map _ = _ ↔ _
  rw [map_inj_left]
  exact forall₂_congr fun e he => deleteCookiePaths_eq_without_iff (htrees.tree e he)

theorem deleteCookie_complete_one : ∃ db, Reachable .plain db ∧ (db.hosts.any fun e => e.allCookies ≠ []) = true ∧
    (deleteCookie (str "h.co") (str "/") (str "a") db).hosts =
      db.hosts.map (·.without (isCookie (str "h.co") (str "/") (str "a"))) := by
  obtain ⟨url, -, hset⟩ := Nsurl.exists_ok_of_any (x := Nsurl.create .plain (fun _ => 0) (str "http://h.co/"))
    (p := fun url => (setCookie .plain 0 (str "a=b") url none Db.empty).any fun r =>
      (r.1.hosts.any fun e => e.allCookies ≠ []) &&
        r.1.hosts.all fun e => e.allCookies.countP (isCookie (str "h.co") (str "/") (str "a")) ≤ 1) (by decide +kernel)
  obtain ⟨⟨db, ok⟩, hset, hp⟩ := exists_some_of_any hset
  obtain ⟨hany, hall⟩ := Bool.and_eq_true_iff.mp hp
  have hreach := reachable_setCookie hset
  refine ⟨db, hreach, hany, (deleteCookie_complete_iff hreach _ _ _).mpr fun e he => ?_⟩
  exact of_decide_eq_true (all_eq_true.mp hall e he)

/-- The cookie is set over http and over https. -/
theorem not_deleteCookie_complete : ¬ ∀ db, Reachable .plain db → ∀ domain path name : Bytes,
    ∀ e ∈ (deleteCookie domain path name db).hosts, ∀ c ∈ e.allCookies, isCookie domain path name c = false := by
  intro h
  obtain ⟨url, -, hset⟩ := Nsurl.exists_ok_of_any (x := Nsurl.create .plain (fun _ => 0) (str "http://h.co/"))
    (p := fun url => (Nsurl.create .plain (fun _ => 0) (str "https://h.co/")).toOption.any fun url' =>
      (setCookie .plain 0 (str "a=b") url none Db.empty).any fun r =>
        (setCookie .plain 0 (str "a=b") url' none r.1).any fun r =>
          (deleteCookie (str "h.co") (str "/") (str "a") r.1).hosts.any fun e =>
            e.allCookies.any (isCookie (str "h.co") (str "/") (str "a"))) (by decide +kernel)
  obtain ⟨url', -, hset⟩ := Nsurl.exists_ok_of_any hset
  obtain ⟨⟨db, ok⟩, hset, hmore⟩ := exists_some_of_any hset
  obtain ⟨⟨db', ok'⟩, hset', hleft⟩ := exists_some_of_any hmore
  obtain ⟨ops, hr⟩ := reachable_setCookie hset
  obtain ⟨e, he, hany⟩ := any_eq_true.mp hleft
  obtain ⟨c, hc, htest⟩ := any_eq_true.mp hany
  have hnot := h db' ⟨_, hr.snoc trivial (.setCookie hset')⟩ _ _ _ e he c hc
  rw [htest] at hnot
  cases hnot

end Nami.Urldb
