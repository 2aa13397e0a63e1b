import Nami.Urldb.Verify.Database

/-!
# What the calls do to the database

One lemma for each call, on top of `DbInvariant` and `Extends`: `addUrl_spec`, `insertCookie_spec`,
`deleteCookie_spec`, and for `urldb_set_cookie` that it stores the cookies of the header one after
another (`setCookies_eq_foldl`).
-/

namespace Nami.Urldb

open List

variable {P : Platform} {db db' : Db} {h : HostRef} {d : PathRef} {now : Int} {url : Nsurl}

/-! ## Changing the cookies of a place -/

/-- The change that `urldb_insert_cookie` makes at the end. -/
def Db.modifyCookies (db : Db) (h : HostRef) (g : List Cookie → List Cookie) : PathRef → Db
  | [] => db.modifyHost h fun e => { e with cookies := g e.cookies }
  | k :: d => db.modifyHost h fun e =>
      { e with nodes := modifyPath (k :: d) (fun p => { p with cookies := g p.cookies }) e.nodes }

theorem keepsHost_modifyNodes (f : List PathData → List PathData) :
    KeepsHost fun e => { e with nodes := f e.nodes } := ⟨fun _ => rfl, fun _ => rfl⟩

theorem keepsHost_modifyCookies (f : List Cookie → List Cookie) :
    KeepsHost fun e => { e with cookies := f e.cookies } := ⟨fun _ => rfl, fun _ => rfl⟩

theorem cookiesAt_modifyCookies (hinv : DbInvariant P db) {e : HostPart} (he : db.host h = some e)
    (hd : pathForest.IsRef (db.nodes h) d) (g : List Cookie → List Cookie) (h' : HostRef)
    (d' : PathRef) : (db.modifyCookies h g d).cookiesAt h' d' =
      if h' = h ∧ d' = d then g (db.cookiesAt h d) else db.cookiesAt h' d' := by
  cases d with
  | nil =>
    have hf := keepsHost_modifyCookies g
    cases d' with
    | nil =>
      simp only [Db.modifyCookies, Db.cookiesAt, Db.cookies, elim_modifyHost hf, and_true]
      by_cases hh : h' = h
      · simp [hh, he]
      · simp [hh]
    | cons k d' =>
      simp only [Db.modifyCookies, Db.cookiesAt, Db.nodes, elim_modifyHost hf]
      by_cases hh : h' = h
      · simp [hh]
      · simp [hh]
  | cons k d =>
    have hf := keepsHost_modifyNodes (modifyPath (k :: d) fun p => { p with cookies := g p.cookies })
    cases d' with
    | nil =>
      simp only [Db.modifyCookies, Db.cookiesAt, Db.cookies, elim_modifyHost hf]
      by_cases hh : h' = h
      · simp [hh]
      · simp [hh]
    | cons k' d' =>
      simp only [Db.modifyCookies, Db.cookiesAt, Db.nodes, elim_modifyHost hf]
      by_cases hh : h' = h
      · subst hh
        have htree := hinv.paths h'
        simp only [Db.nodes, he, Option.elim_some] at htree hd
        simp only [if_true, he, Option.elim_some, true_and]
        exact htree.nodeCookies_modifyPath hd (cons_ne_nil k d) g _
      · simp [hh]

theorem modifyCookies_kept (hinv : DbInvariant P db) {e : HostPart} (he : db.host h = some e)
    (hd : pathForest.IsRef (db.nodes h) d) {g : List Cookie → List Cookie}
    (hg : ∀ l : List Cookie, (l.Pairwise fun a b => sameCookie a b = false) →
      (g l).Pairwise fun a b => sameCookie a b = false) :
    Kept P db (db.modifyCookies h g d) := by
  have hunique : ∀ h' d', ((db.modifyCookies h g d).cookiesAt h' d').Pairwise fun a b => sameCookie a b = false := by
    intro h' d'
    rw [cookiesAt_modifyCookies hinv he hd]
    split
    · exact hg _ (hinv.unique h d)
    · exact hinv.unique h' d'
  cases d with
  | nil =>
    have hf := keepsHost_modifyCookies g
    refine ⟨hinv.mapHosts (hf.at h) ?_ hunique, ⟨fun _ _ h => h, ?_, fun _ h => h⟩⟩
    · intro e' hp
      split <;> exact hp
    · intro h' d' hd'
      rw [Db.modifyCookies, Db.nodes, elim_modifyHost hf]
      split
      · next hh =>
        subst hh
        exact hd'
      · exact hd'
  | cons k d =>
    have hk := (keepsNode_cookies g).at (k :: d)
    have hf := keepsHost_modifyNodes (modifyPath (k :: d) fun p => { p with cookies := g p.cookies })
    refine ⟨hinv.mapHosts (hf.at h) ?_ hunique, ⟨fun _ _ h => h, ?_, fun _ h => h⟩⟩
    · intro e' hp
      split
      · exact hp.map hk
      · exact hp
    · intro h' d' hd'
      rw [Db.modifyCookies, Db.nodes, elim_modifyHost hf]
      split
      · next hh =>
        subst hh
        rw [Db.nodes, he, Option.elim_some] at hd'
        rw [he, Option.elim_some]
        exact (KeyForest.isRef_map hk.ref).2 hd'
      · exact hd'

/-! ## `urldb_insert_cookie` -/

theorem findOrAddHost_ready (hP : P.Caseless) (hinv : DbInvariant P db) {host : Bytes} (hs : IndexSafe P host) :
    HostReady P host db (findOrAddHost P host db).1 (findOrAddHost P host db).2 := by
  rw [findOrAddHost]
  cases hf : findHost P host db with
  | none => exact addHost_ready hP hinv hs
  | some h =>
    obtain ⟨hmem, hname⟩ := (findHost_eq_some_iff hinv.index).1 hf
    exact ⟨⟨hinv, .refl db⟩, hmem, Or.inr hname, fun _ => rfl, fun _ => rfl, rfl⟩

/-- The path node for a cookie. -/
def cookieRef (scheme : Bytes) (c : Cookie) : PathRef :=
  if c.domain.head? = some ('.' : UInt8) then [] else chain scheme 0 (segments (skipSlash c.path))

/-- The place where a cookie was stored; nothing else has changed. -/
structure CookieStored (P : Platform) (now : Int) (scheme : Bytes) (c : Cookie) (db : Db)
    (h : HostRef) (db' : Db) : Prop where
  kept : Kept P db db'
  indexed : h ∈ (db'.searchTrees (getSearchTree P (domainHost c.domain))).toList
  name : lowerRef h = lowerRef (storedKey P (domainHost c.domain)) ∨
    lowerRef h = lowerRef (hostKey P (domainHost c.domain))
  isRef : pathForest.IsRef (db'.nodes h) (cookieRef scheme c)
  cookiesAt : ∀ h' d', db'.cookiesAt h' d' =
    if h' = h ∧ d' = cookieRef scheme c then storeCookie now c (db.cookiesAt h (cookieRef scheme c))
    else db.cookiesAt h' d'

theorem chain_ne_nil {scheme : Bytes} {port : UInt32} {segs : List Bytes} (h : segs ≠ []) :
    chain scheme port segs ≠ [] := by
  simpa [chain] using h

theorem segments_ne_nil (path : Bytes) : segments path ≠ [] := splitOn_ne_nil _ _

theorem insertCookie_spec (hP : P.Caseless) (hinv : DbInvariant P db) (scheme : Bytes) {c : Cookie}
    (hs : IndexSafe P (domainHost c.domain)) :
    ∃ h, CookieStored P now scheme c db h (insertCookie P now c scheme url db) := by
  by_cases hdot : c.domain.head? = some ('.' : UInt8)
  · have hr := findOrAddHost_ready hP hinv hs
    simp only [insertCookie, domainHost, hdot, if_true] at hs hr ⊢
    generalize findOrAddHost P (c.domain.drop 1) db = r at hr ⊢
    obtain ⟨e, he⟩ := hr.exists_host
    have hk := modifyCookies_kept hr.kept.inv he (d := []) (Or.inl rfl)
      (g := storeCookie now c) fun l => storeCookie_unique
    have hc := cookiesAt_modifyCookies hr.kept.inv he (d := []) (Or.inl rfl) (storeCookie now c)
    refine ⟨r.1, hr.kept.trans hk, ?_, ?_, ?_, ?_⟩
    · rw [domainHost, if_pos hdot]
      exact hk.ext.trees _ _ hr.indexed
    · rw [domainHost, if_pos hdot]
      exact hr.name
    · rw [cookieRef, if_pos hdot]
      exact Or.inl rfl
    · intro h' d'
      simp only [cookieRef, hdot, if_true, ← hr.cookiesAt]
      exact hc h' d'
  · have hr := findOrAddHost_ready hP hinv hs
    simp only [insertCookie, domainHost, hdot, if_false] at hs hr ⊢
    generalize findOrAddHost P c.domain db = r at hr ⊢
    obtain ⟨e, he⟩ := hr.exists_host
    obtain ⟨hname, hp⟩ := addPath_ready hr.kept.inv he scheme 0 c.path none url
    generalize r.2.addPath P scheme 0 r.1 c.path none url = q at hname hp ⊢
    obtain ⟨e', he'⟩ := Option.isSome_iff_exists.1 ((hp.host r.1).trans (by rw [he]; rfl))
    obtain ⟨k, t, hkt⟩ := exists_cons_of_ne_nil (@chain_ne_nil scheme 0 _ (segments_ne_nil (skipSlash c.path)))
    have hisRef := hp.isRef
    rw [hkt] at hname hisRef
    have hk := modifyCookies_kept hp.kept.inv he' hisRef (g := storeCookie now c) fun l => storeCookie_unique
    have hc := cookiesAt_modifyCookies hp.kept.inv he' hisRef (storeCookie now c)
    rw [hname]
    refine ⟨r.1, hr.kept.trans (hp.kept.trans hk), ?_, ?_, ?_, ?_⟩
    · rw [domainHost, if_neg hdot]
      exact hk.ext.trees _ _ (hp.kept.ext.trees _ _ hr.indexed)
    · rw [domainHost, if_neg hdot]
      exact hr.name
    · rw [cookieRef, if_neg hdot, hkt]
      exact hk.ext.nodes _ _ hisRef
    · intro h' d'
      simp only [cookieRef, hdot, if_false, hkt, ← hr.cookiesAt, ← hp.cookiesAt]
      exact hc h' d'

/-! ## `urldb_add_url` -/

theorem addToBloom_kept (hinv : DbInvariant P db) (url : Nsurl) :
    Kept P db (addToBloom url db) ∧ bloomKnows (addToBloom url db) url.hash := by
  refine ⟨⟨⟨⟨hinv.index.forest, hinv.index.valid, hinv.index.sorted, hinv.index.isHost,
    hinv.index.address, hinv.index.named⟩, hinv.rootAddress, hinv.paths, hinv.unique⟩,
    ⟨fun _ _ h => h, fun _ _ h => h, ?_⟩⟩, ?_⟩
  · rintro hash ⟨bloom, hb, hs⟩
    refine ⟨_, rfl, ?_⟩
    rw [hb, Option.getD_some]
    exact BloomFilter.searchHash_insertHash _ hs
  · exact ⟨_, rfl, BloomFilter.searchHash_insertHash_self _ _⟩

/-- The database after a URL is added: no cookie has moved, and the node that is returned is that of the
URL. -/
structure UrlAdded (P : Platform) (url : Nsurl) (db : Db) (db' : Db)
    (node : Option (HostRef × PathRef)) : Prop where
  kept : Kept P db db'
  cookiesAt : ∀ h d, db'.cookiesAt h d = db.cookiesAt h d
  bloom : bloomKnows db' url.hash
  node : ∀ scheme host plq, url.components.scheme = some scheme → hostStrOf url = some host →
    pathQueryOf url = some plq → ∃ h, h ∈ (db'.searchTrees (getSearchTree P host)).toList ∧
      lowerRef h = lowerRef (storedKey P host) ∧
      pathForest.IsRef (db'.nodes h) (chain scheme (portOf url) (segments (skipSlash plq))) ∧
      node = some (h, chain scheme (portOf url) (segments (skipSlash plq)))

theorem addUrl_spec (hP : P.Caseless) (hinv : DbInvariant P db)
    (hs : ∀ host, hostStrOf url = some host → IndexSafe P host) :
    UrlAdded P url db (addUrl P url db).1 (addUrl P url db).2 := by
  obtain ⟨hk₀, hb⟩ := addToBloom_kept hinv url
  have hc₀ : ∀ h d, (addToBloom url db).cookiesAt h d = db.cookiesAt h d := fun h d => by
    cases d <;> rfl
  unfold addUrl
  generalize addToBloom url db = db₀ at hk₀ hb hc₀
  cases hplq : pathQueryOf url with
  | none => exact ⟨hk₀, hc₀, hb, fun _ _ _ _ _ h => by rw [hplq] at h; cases h⟩
  | some plq =>
    cases hscheme : url.components.scheme with
    | none => exact ⟨hk₀, hc₀, hb, fun _ _ _ h => by rw [hscheme] at h; cases h⟩
    | some scheme =>
      cases hhost : hostStrOf url with
      | none => exact ⟨hk₀, hc₀, hb, fun _ _ _ _ h => by rw [hhost] at h; cases h⟩
      | some host =>
        have hr := addHost_ready hP hk₀.inv (hs host hhost)
        have ha := addHost_spec hP hk₀.inv.index ((hs host hhost).indexable hP hk₀.inv)
        simp only
        generalize addHost P host db₀ = r at hr ha ⊢
        obtain ⟨e, he⟩ := hr.exists_host
        obtain ⟨hname, hp⟩ := addPath_ready hr.kept.inv he scheme (portOf url) plq url.components.fragment url
        generalize r.2.addPath P scheme (portOf url) r.1 plq url.components.fragment url = q at hname hp ⊢
        refine ⟨hk₀.trans (hr.kept.trans hp.kept), ?_, ?_, ?_⟩
        · intro h d
          rw [hp.cookiesAt, hr.cookiesAt, hc₀]
        · exact hp.kept.ext.bloom _ (hr.kept.ext.bloom _ hb)
        · rintro scheme' host' plq' hs' hh' hp'
          obtain rfl := Option.some.inj (hscheme.symm.trans hs')
          obtain rfl := Option.some.inj (hhost.symm.trans hh')
          obtain rfl := Option.some.inj (hplq.symm.trans hp')
          refine ⟨r.1, hp.kept.ext.trees _ _ hr.indexed, ha.name, hp.isRef, ?_⟩
          rw [hname]

/-! ## `urldb_delete_cookie` -/

theorem mem_preorder {nodes : List PathData} {depth : Nat} {d : PathRef} {p : PathData}
    (h : p ∈ preorder nodes depth d) : p ∈ nodes := by
  induction depth generalizing d with
  | zero => cases h
  | succ depth ih =>
    simp only [preorder, mem_flatMap, mem_cons] at h
    obtain ⟨q, hq, rfl | hp⟩ := h
    · exact (mem_children.1 hq).1
    · exact ih hp

theorem keepsHost_deleteCookiePaths (domain path name : Bytes) : KeepsHost (deleteCookiePaths domain path name) := by
  refine ⟨fun e => ?_, fun e => ?_⟩ <;> simp only [deleteCookiePaths] <;> split <;>
    first | rfl | split <;> rfl

theorem deleteCookiePaths_spec {e : HostPart} (he : PathTree e.nodes) (domain path name : Bytes) :
    PathTree (deleteCookiePaths domain path name e).nodes ∧
      (deleteCookiePaths domain path name e).cookies.Sublist e.cookies ∧
      (∀ d, pathForest.IsRef e.nodes d → pathForest.IsRef (deleteCookiePaths domain path name e).nodes d) ∧
      ∀ d, (nodeCookies (deleteCookiePaths domain path name e).nodes d).Sublist (nodeCookies e.nodes d) := by
  simp only [deleteCookiePaths]
  split
  · exact ⟨he, eraseP_sublist, fun _ h => h, fun _ => List.Sublist.refl _⟩
  · split
    · next p hfind =>
      have hp : p ∈ e.nodes := mem_preorder (mem_of_find?_eq_some hfind)
      have hk := (keepsNode_cookies (removeCookie domain path name)).at p.ref
      refine ⟨he.map hk, List.Sublist.refl _, fun d hd => (KeyForest.isRef_map hk.ref).2 hd, ?_⟩
      intro d
      rw [he.nodeCookies_modifyPath (Or.inr ⟨p, hp, rfl⟩) (cons_ne_nil _ _)]
      split
      · next hd =>
        subst hd
        exact eraseP_sublist
      · exact List.Sublist.refl _
    · exact ⟨he, List.Sublist.refl _, fun _ h => h, fun _ => List.Sublist.refl _⟩

theorem deleteCookie_spec (hinv : DbInvariant P db) (domain path name : Bytes) :
    Kept P db (deleteCookie domain path name db) ∧
      ∀ h d, ((deleteCookie domain path name db).cookiesAt h d).Sublist (db.cookiesAt h d) := by
  have hf := keepsHost_deleteCookiePaths domain path name
  have hhost : ∀ h, (deleteCookie domain path name db).host h =
      (db.host h).map (deleteCookiePaths domain path name) := host_mapHosts hf
  have htree : ∀ {h e}, db.host h = some e → PathTree e.nodes := by
    intro h e he
    have := hinv.paths h
    rwa [Db.nodes, he] at this
  have hsub : ∀ h d, ((deleteCookie domain path name db).cookiesAt h d).Sublist (db.cookiesAt h d) := by
    intro h d
    cases d <;> simp only [Db.cookiesAt, Db.cookies, Db.nodes, hhost] <;> cases he : db.host h with
    | none => exact List.Sublist.refl _
    | some e =>
      first
      | exact (deleteCookiePaths_spec (htree he) domain path name).2.1
      | exact (deleteCookiePaths_spec (htree he) domain path name).2.2.2 _
  refine ⟨⟨hinv.mapHosts hf (fun e he => (deleteCookiePaths_spec he domain path name).1) ?_,
    ⟨fun _ _ h => h, ?_, fun _ h => h⟩⟩, hsub⟩
  · exact fun h d => (hinv.unique h d).sublist (hsub h d)
  · intro h d hd
    rw [Db.nodes, hhost]
    rw [Db.nodes] at hd
    cases he : db.host h with
    | none =>
      rw [he] at hd
      exact hd
    | some e =>
      rw [he] at hd
      exact (deleteCookiePaths_spec (htree he) domain path name).2.2.1 d hd

/-! ## `urldb_set_cookie` -/

/-- A property of the draft after a step of the scan. -/
def ScanStep.Holds (I : CookieDraft → Prop) : ScanStep → Prop
  | .continue st => I st.cookie
  | .break st _ => I st.cookie

section Scan

variable {I : CookieDraft → Prop} {cur : UInt8} {rest : Bytes} {st : ParseState}

theorem accumulate_cookie (cur : UInt8) (st : ParseState) : (accumulate cur st).cookie = st.cookie := by
  simp only [accumulate]
  split <;> split <;> rfl

theorem scanOther_holds (h : I st.cookie) : (scanOther cur rest st).Holds I := by
  simp only [scanOther]
  split
  · exact h
  · rwa [ScanStep.Holds, accumulate_cookie]

theorem scanEquals_holds (h : I st.cookie) : (scanEquals cur rest st).Holds I := by
  simp only [scanEquals]
  split
  · exact h
  · exact scanOther_holds h

variable (hpair : ∀ c n v q, I c → I (parseAvpair P now c n v q))
include hpair

theorem scanEnd_holds (h : I st.cookie) : (scanEnd P now cur rest st).Holds I := by
  simp only [scanEnd]
  split
  · split
    · exact hpair _ _ _ _ h
    · exact scanEquals_holds (hpair _ _ _ _ h)
  · exact scanOther_holds h

theorem scanQuote_holds (prev : Option UInt8) (h : I st.cookie) : (scanQuote P now prev cur rest st).Holds I := by
  simp only [scanQuote]
  split
  · exact h
  · split
    · exact h
    · exact scanEnd_holds hpair h

theorem scanByte_holds (prev : Option UInt8) (h : I st.cookie) : (scanByte P now prev cur rest st).Holds I := by
  simp only [scanByte]
  split
  · split
    · exact h
    · exact scanQuote_holds hpair prev h
  · exact scanQuote_holds hpair prev h

theorem scanCookie_holds (prev : Option UInt8) (cookie : Bytes) (h : I st.cookie) :
    I (scanCookie P now prev cookie st).1.cookie := by
  induction cookie generalizing prev st with
  | nil => exact h
  | cons cur rest ih =>
    simp only [scanCookie]
    split
    · split <;> exact h
    · split
      · exact ih _ h
      · have hb : (scanByte P now prev cur rest st).Holds I := scanByte_holds hpair prev h
        split
        · next hstep =>
          rw [hstep] at hb
          exact ih _ hb
        · next hstep =>
          rw [hstep] at hb
          exact hb

end Scan

/-- The domain of a draft starts with a dot. -/
def DottedDomain (c : CookieDraft) : Prop := ∀ domain ∈ c.domain, domain.head? = some ('.' : UInt8)

theorem DottedDomain.ite {p : Prop} [Decidable p] {c d : CookieDraft} (hc : DottedDomain c) (hd : DottedDomain d) :
    DottedDomain (if p then c else d) := by
  split
  · exact hc
  · exact hd

theorem dottedDomain_parseAvpair {c : CookieDraft} (n v : Bytes) (q : Bool) (h : DottedDomain c) :
    DottedDomain (parseAvpair P now c n v q) := by
  have hdomain : DottedDomain (if (strip v).head? = some ('.' : UInt8) then
      { c with domainFromSet := true, domain := some (strip v) } else c) := by
    split
    · next hdot =>
      rintro domain ⟨⟩
      exact hdot
    · exact h
  unfold parseAvpair
  -- only the branch for the domain sets one
  refine .ite h (.ite hdomain (.ite h (.ite h (.ite h (.ite h (.ite h (.ite h (.ite h h))))))))

theorem parseCookie_domain {cookie cur : Bytes} {draft : CookieDraft}
    (h : parseCookie P now url cookie = some (draft, cur)) {domain : Bytes}
    (hd : draft.domain = some domain) : domain.head? = some ('.' : UInt8) ∨
      ∃ host, url.components.host = some host ∧ domain = cstr host := by
  have hscan : DottedDomain (scanCookie P now none cookie .start).1.cookie :=
    @scanCookie_holds P now _ .start (fun c n v q => dottedDomain_parseAvpair n v q) none cookie nofun
  simp only [parseCookie, Option.bind_eq_bind, Option.bind_eq_some_iff, Option.some.injEq, Prod.mk.injEq] at h
  obtain ⟨c, hfix, rfl, -⟩ := h
  have hdot := @dottedDomain_parseAvpair P now _ (scanCookie P now none cookie .start).1.name
    (scanCookie P now none cookie .start).1.value (scanCookie P now none cookie .start).1.wasQuoted hscan
  generalize parseAvpair P now _ _ _ _ = c₀ at hfix hdot
  simp only [fixUp, Option.bind_eq_bind, Option.bind_eq_some_iff, Option.some.injEq] at hfix
  obtain ⟨dom, hdom, path, -, rfl⟩ := hfix
  obtain rfl := Option.some.inj hd
  cases hc : c₀.domain with
  | some dom' =>
    rw [hc] at hdom
    obtain rfl : dom' = dom := Option.some.inj hdom
    exact Or.inl (hdot dom' hc)
  | none =>
    rw [hc] at hdom
    obtain ⟨host, hh, rfl⟩ := Option.map_eq_some_iff.1 (show url.components.host.map cstr = some dom from hdom)
    exact Or.inr ⟨host, hh, rfl⟩

/-- The cookies that `urldb_set_cookie` takes from a header, in their order. -/
def headerCookies (P : Platform) (now : Int) (url : Nsurl) (path host : Bytes) :
    Nat → Bytes → List Cookie
  | 0, _ => []
  | fuel + 1, cur =>
    match parseCookie P now url cur with
    | none => []
    | some (draft, cur) =>
      match draft.toCookie with
      | none => []
      | some c =>
        if validCookie P host path c then
          c :: if cur.length > 2 then headerCookies P now url path host fuel cur else []
        else []

theorem setCookies_eq_foldl {scheme path host : Bytes} {fuel : Nat} {cur : Bytes} {ok : Bool}
    (h : setCookies P now url scheme path host fuel cur db = some (db', ok)) :
    db' = (headerCookies P now url path host fuel cur).foldl
      (fun db c => insertCookie P now c scheme (Nsurl.defragment P url) db) db := by
  induction fuel generalizing cur db with
  | zero => cases h
  | succ fuel ih =>
    simp only [setCookies] at h
    simp only [headerCookies]
    cases hp : parseCookie P now url cur with
    | none =>
      rw [hp] at h
      cases h
      rfl
    | some r =>
      obtain ⟨draft, cur'⟩ := r
      rw [hp] at h
      simp only at h ⊢
      cases hc : draft.toCookie with
      | none =>
        rw [hc] at h
        cases h
        rfl
      | some c =>
        rw [hc] at h
        simp only at h ⊢
        by_cases hv : validCookie P host path c = true
        · simp only [hv, Bool.not_true, Bool.false_eq_true, if_false, if_true] at h ⊢
          by_cases hlen : cur'.length > 2
          · rw [if_pos hlen] at h ⊢
            exact ih h
          · rw [if_neg hlen] at h ⊢
            cases h
            rfl
        · rw [Bool.not_eq_true] at hv
          simp only [hv, Bool.not_false, if_true, Bool.false_eq_true, if_false] at h ⊢
          cases h
          rfl

theorem mem_headerCookies {path host : Bytes} (hhost : url.components.host = some host) {fuel : Nat}
    {cur : Bytes} {c : Cookie} (hc : c ∈ headerCookies P now url path host fuel cur) :
    validCookie P host path c = true ∧ (c.domain.head? = some ('.' : UInt8) ∨ c.domain = cstr host) := by
  induction fuel generalizing cur with
  | zero => cases hc
  | succ fuel ih =>
    simp only [headerCookies] at hc
    split at hc
    · cases hc
    · next draft cur' hp =>
      split at hc
      · cases hc
      · next c' hdraft =>
        split at hc
        · next hv =>
          rcases mem_cons.1 hc with rfl | hc
          · refine ⟨hv, ?_⟩
            simp only [CookieDraft.toCookie, Option.bind_eq_bind, Option.bind_eq_some_iff, Option.some.injEq] at hdraft
            obtain ⟨_, -, _, -, domain, hdom, _, -, rfl⟩ := hdraft
            refine (parseCookie_domain hp hdom).imp id ?_
            rintro ⟨host', hh, rfl⟩
            rw [Option.some.inj (hhost.symm.trans hh)]
          · split at hc
            · exact ih hc
            · cases hc
        · cases hc

/-- The cookies that a call of `urldb_set_cookie` stores, in their order. -/
def storedCookies (P : Platform) (now : Int) (header : Bytes) (url : Nsurl) (referer : Option Nsurl) :
    List Cookie :=
  match url.components.scheme, url.components.path, url.components.host with
  | some _, some path, some host =>
    if referer.all (refererMatches P host) then
      headerCookies P now url path host (header.length + 1) header
    else []
  | _, _, _ => []

/-- Stores cookies one after another, as `urldb_set_cookie` does for the URL. -/
def insertCookies (P : Platform) (now : Int) (url : Nsurl) (cs : List Cookie) (db : Db) : Db :=
  cs.foldl (fun db c =>
    insertCookie P now c (url.components.scheme.getD []) (Nsurl.defragment P url) db) db

theorem setCookie_eq_insertCookies {header : Bytes} {referer : Option Nsurl} {ok : Bool}
    (h : setCookie P now header url referer db = some (db', ok)) :
    db' = insertCookies P now url (storedCookies P now header url referer) db := by
  have hstop : some (db, false) = some (db', ok) → db' = db := fun h =>
    (Prod.mk.inj (Option.some.inj h)).1.symm
  cases hscheme : url.components.scheme with
  | none =>
    simp only [setCookie, storedCookies, hscheme] at h ⊢
    exact hstop h
  | some scheme =>
    cases hpath : url.components.path with
    | none =>
      simp only [setCookie, storedCookies, hscheme, hpath] at h ⊢
      exact hstop h
    | some path =>
      cases hhost : url.components.host with
      | none =>
        simp only [setCookie, storedCookies, hscheme, hpath, hhost] at h ⊢
        exact hstop h
      | some host =>
        simp only [setCookie, storedCookies, insertCookies, hscheme, hpath, hhost] at h ⊢
        by_cases hreferer : referer.all (refererMatches P host) = true
        · rw [if_pos hreferer] at h ⊢
          exact setCookies_eq_foldl h
        · rw [if_neg hreferer] at h ⊢
          exact hstop h

theorem mem_storedCookies {header : Bytes} {referer : Option Nsurl} {c : Cookie}
    (hc : c ∈ storedCookies P now header url referer) : ∃ host path,
    url.components.host = some host ∧ url.components.path = some path ∧ validCookie P host path c = true ∧
      (c.domain.head? = some ('.' : UInt8) ∨ c.domain = cstr host) := by
  simp only [storedCookies] at hc
  split at hc
  · next scheme path host hscheme hpath hhost =>
    split at hc
    · obtain ⟨hv, hd⟩ := mem_headerCookies hhost hc
      exact ⟨host, path, hhost, hpath, hv, hd⟩
    · cases hc
  · cases hc

theorem insertCookies_kept (hP : P.Caseless) {cs : List Cookie}
    (hs : ∀ c ∈ cs, IndexSafe P (domainHost c.domain)) (hinv : DbInvariant P db) :
    Kept P db (insertCookies P now url cs db) := by
  induction cs generalizing db with
  | nil => exact .refl hinv
  | cons c cs ih =>
    obtain ⟨h, hc⟩ := insertCookie_spec hP hinv _ (hs c mem_cons_self)
    exact hc.kept.trans (ih (fun x hx => hs x (mem_cons_of_mem _ hx)) hc.kept.inv)

/-- The place for a cookie. -/
def FiledAt (P : Platform) (url : Nsurl) (c : Cookie) (h : HostRef) (d : PathRef) : Prop :=
  lowerRef h = lowerRef (hostKey P (domainHost c.domain)) ∧
    d = cookieRef (url.components.scheme.getD []) c

theorem CookieStored.filedAt {c : Cookie} (hc : CookieStored P now (url.components.scheme.getD []) c db h db')
    (hlen : (domainHost c.domain).length ≤ 255) :
    FiledAt P url c h (cookieRef (url.components.scheme.getD []) c) := by
  have hname := hc.name
  rw [storedKey_eq_hostKey hlen, or_self] at hname
  exact ⟨hname, rfl⟩

theorem mem_insertCookies (hP : P.Caseless) {cs : List Cookie} (hs : ∀ c ∈ cs, IndexSafe P (domainHost c.domain))
    (hlen : ∀ c ∈ cs, (domainHost c.domain).length ≤ 255) (hinv : DbInvariant P db) {c : Cookie}
    (hc : c ∈ (insertCookies P now url cs db).cookiesAt h d) :
    c ∈ db.cookiesAt h d ∨ c ∈ cs ∧ FiledAt P url c h d := by
  induction cs generalizing db with
  | nil => exact Or.inl hc
  | cons c' cs ih =>
    obtain ⟨h', hst⟩ := insertCookie_spec hP hinv _ (hs c' mem_cons_self)
    rcases ih (fun x hx => hs x (mem_cons_of_mem _ hx))
      (fun x hx => hlen x (mem_cons_of_mem _ hx)) hst.kept.inv hc with hold | ⟨hin, hfiled⟩
    · rw [hst.cookiesAt] at hold
      split at hold
      · next hplace =>
        obtain ⟨rfl, rfl⟩ := hplace
        rcases mem_of_mem_storeCookie hold with hold | rfl
        · exact Or.inl hold
        · exact Or.inr ⟨mem_cons_self, hst.filedAt (hlen c mem_cons_self)⟩
      · exact Or.inl hold
    · exact Or.inr ⟨mem_cons_of_mem _ hin, hfiled⟩

end Nami.Urldb
