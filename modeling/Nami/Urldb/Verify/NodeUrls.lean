import Nami.Urldb.Entries
import Nami.Urldb.Verify.Lookup

/-!
# The URLs of path nodes

A path node gets a URL once, from the first call that walks to it (`UrlWritten`). A call that adds a URL
walks to the node of that URL, but a call that stores a cookie walks to the node of the cookie's path and
passes the URL of the request. `NodeIdentity` says that each node has a URL of its own place.
-/

namespace Nami.Urldb

open List

variable {P : Platform} {db db' : Db} {h : HostRef} {d : PathRef} {now : Int} {url w : Nsurl}
variable {nodes : List PathData} {c : Cookie}

/-! ## The URL of a node -/

/-- The node `d` has the URL. -/
def HasUrl (nodes : List PathData) (d : PathRef) (w : Nsurl) : Prop :=
  ∃ p ∈ nodes, p.ref = d ∧ p.url = some w

theorem PathTree.eq_of_ref (h : PathTree nodes) {p q : PathData} (hp : p ∈ nodes) (hq : q ∈ nodes)
    (href : p.ref = q.ref) : p = q := h.forest.eq_of_normRef hp hq (congrArg _ href)

theorem HasUrl.unique (h : PathTree nodes) {w' : Nsurl} (hw : HasUrl nodes d w) (hw' : HasUrl nodes d w') : w = w' := by
  obtain ⟨p, hp, rfl, hurl⟩ := hw
  obtain ⟨q, hq, href, hurl'⟩ := hw'
  obtain rfl := h.eq_of_ref hq hp href
  exact Option.some.inj (hurl.symm.trans hurl')

theorem hasUrl_map {f : PathData → PathData} (hf : KeepsNode f) (hurl : ∀ p, (f p).url = p.url) :
    HasUrl (nodes.map f) d w ↔ HasUrl nodes d w := by
  constructor
  · rintro ⟨_, hmem, href, hw⟩
    obtain ⟨p, hp, rfl⟩ := mem_map.1 hmem
    exact ⟨p, hp, (hf.ref p).symm.trans href, (hurl p).symm.trans hw⟩
  · rintro ⟨p, hp, href, hw⟩
    exact ⟨f p, mem_map_of_mem hp, (hf.ref p).trans href, (hurl p).trans hw⟩

theorem hasUrl_modifyPath {f : PathData → PathData} (hf : KeepsNode f) (hurl : ∀ p, (f p).url = p.url)
    (d' : PathRef) : HasUrl (modifyPath d' f nodes) d w ↔ HasUrl nodes d w := by
  apply hasUrl_map (hf.at d')
  intro p
  split
  · exact hurl p
  · rfl

/-- The place `d` has a URL; when it had none, it is `w`. No other URL has changed. -/
structure UrlWritten {α : Type} (had : α → Nsurl → Prop) (d : α) (w : Nsurl) (has : α → Nsurl → Prop) :
    Prop where
  keeps : ∀ d' w', had d' w' → has d' w'
  new : ∀ d' w', has d' w' → had d' w' ∨ d' = d ∧ w' = w ∧ ∀ w'', ¬ had d w''
  there : ∃ w', has d w'

theorem urlWritten_setPathUrl (h : PathTree nodes) (hd : ∃ p ∈ nodes, p.ref = d) :
    UrlWritten (HasUrl nodes) d (Nsurl.defragment P url) (HasUrl (modifyPath d (setPathUrl P url) nodes)) := by
  have hk := (keepsNode_setPathUrl P url).at d
  have hset : ∀ p : PathData, ∀ w, p.url = some w → setPathUrl P url p = p := by
    intro p w hw
    unfold setPathUrl
    rw [if_neg (by rw [hw]; exact Option.some_ne_none w)]
  have hnew : ∀ p : PathData, p.url = none → (setPathUrl P url p).url = some (Nsurl.defragment P url) := by
    intro p hp
    unfold setPathUrl
    rw [if_pos hp]
  refine ⟨?_, ?_, ?_⟩
  · rintro d' w' ⟨p, hp, href, hw⟩
    refine ⟨p, mem_map.2 ⟨p, hp, ?_⟩, href, hw⟩
    split
    · exact hset p w' hw
    · rfl
  · rintro d' w' ⟨_, hmem, href, hw⟩
    obtain ⟨p, hp, rfl⟩ := mem_map.1 hmem
    rw [hk.ref] at href
    split at hw
    · next hpd =>
      cases hurl : p.url with
      | some w₀ =>
        rw [hset p w₀ hurl] at hw
        exact Or.inl ⟨p, hp, href, hw⟩
      | none =>
        rw [hnew p hurl] at hw
        refine Or.inr ⟨href.symm.trans hpd, (Option.some.inj hw).symm, ?_⟩
        rintro w'' ⟨q, hq, hqd, hqw⟩
        rw [h.eq_of_ref hq hp (hqd.trans hpd.symm), hurl] at hqw
        cases hqw
    · exact Or.inl ⟨p, hp, href, hw⟩
  · obtain ⟨p, hp, href⟩ := hd
    have hmem : setPathUrl P url p ∈ modifyPath d (setPathUrl P url) nodes := mem_map.2 ⟨p, hp, if_pos href⟩
    have hpref : (setPathUrl P url p).ref = d := ((keepsNode_setPathUrl P url).ref p).trans href
    cases hurl : p.url with
    | some w₀ => exact ⟨w₀, _, hmem, hpref, by rw [hset p w₀ hurl, hurl]⟩
    | none => exact ⟨_, _, hmem, hpref, hnew p hurl⟩

theorem urlWritten_addPath (P : Platform) (scheme : Bytes) (port : UInt32) (path : Bytes)
    (fragment : Option Bytes) (url : Nsurl) (h : PathTree nodes) :
    UrlWritten (HasUrl nodes) (chain scheme port (segments (skipSlash path)))
      (Nsurl.defragment P url) (HasUrl (addPath P scheme port path fragment url nodes).2) := by
  have hd := KeyForest.descend_spec (pathKeys scheme port path) h.forest (d := []) (Or.inl rfl)
  have hsorted : ∀ d, (children (pathForest.descend (pathKeys scheme port path) [] nodes).2 d).Pairwise
      segmentLe :=
    KeyForest.descend_induction (I := fun nodes => ∀ d, (children nodes d).Pairwise segmentLe) _
      h.sorted fun k d nodes hs d' => sorted_addPathNode hs _ d'
  simp only [addPath]
  generalize pathForest.descend (pathKeys scheme port path) [] nodes = r at hd hsorted ⊢
  obtain ⟨hwf, href, hname, hsub, hcreated⟩ := hd
  rw [normRef_path, normRef_path, append_nil] at hname
  have hsame : ∀ d w, HasUrl r.2 d w ↔ HasUrl nodes d w := by
    intro d w
    constructor
    · rintro ⟨p, hp, hpd, hw⟩
      rcases hcreated p hp with hp | ⟨k, parent, ks, rfl, -⟩
      · exact ⟨p, hp, hpd, hw⟩
      · cases hw
    · rintro ⟨p, hp, hpd, hw⟩
      exact ⟨p, hsub p hp, hpd, hw⟩
  have hfrag : ∀ p, (addPathFragment fragment p).url = p.url := by
    intro p
    cases fragment <;> rfl
  have hkeep := keepsNode_addPathFragment fragment
  have htree := (PathTree.mk hwf hsorted).map (hkeep.at r.1)
  have hthere : ∃ p ∈ modifyPath r.1 (addPathFragment fragment) r.2, p.ref = r.1 := by
    have hne : r.1 ≠ [] := by
      rw [hname]
      exact chain_ne_nil (segments_ne_nil _)
    obtain ⟨p, hp, hpd⟩ := ((KeyForest.isRef_map (hkeep.at r.1).ref).2 href).resolve_left hne
    exact ⟨p, hp, hpd⟩
  have hwritten := @urlWritten_setPathUrl P _ url _ htree hthere
  have hbefore : ∀ d w, HasUrl (modifyPath r.1 (addPathFragment fragment) r.2) d w ↔
      HasUrl nodes d w := fun d w => (hasUrl_modifyPath hkeep hfrag r.1).trans (hsame d w)
  rw [show chain scheme port (segments (skipSlash path)) = r.1 from hname.symm]
  refine ⟨fun d' w' hw => hwritten.keeps d' w' ((hbefore d' w').2 hw), fun d' w' hw => ?_, hwritten.there⟩
  refine (hwritten.new d' w' hw).imp (hbefore d' w').1 ?_
  rintro ⟨hd', hw', hnone⟩
  exact ⟨hd', hw', fun w'' hw'' => hnone w'' ((hbefore r.1 w'').2 hw'')⟩

/-! ## The URLs of a database -/

/-- The URL of a node of the database. -/
def Db.HasUrl (db : Db) (place : HostRef × PathRef) (w : Nsurl) : Prop :=
  Urldb.HasUrl (db.nodes place.1) place.2 w

theorem UrlWritten.congr {α : Type} {had had' has has' : α → Nsurl → Prop} {d : α}
    (hw : UrlWritten had d w has) (hhad : ∀ d w, had' d w ↔ had d w) (hhas : ∀ d w, has' d w ↔ has d w) :
    UrlWritten had' d w has' := by
  have hbefore : had' = had := funext fun d => funext fun w => propext (hhad d w)
  have hafter : has' = has := funext fun d => funext fun w => propext (hhas d w)
  rwa [hbefore, hafter]

theorem urlWritten_dbAddPath (htree : PathTree (db.nodes h)) {e : HostPart} (he : db.host h = some e)
    (scheme : Bytes) (port : UInt32) (path : Bytes) (fragment : Option Bytes) (url : Nsurl) :
    UrlWritten db.HasUrl (h, chain scheme port (segments (skipSlash path)))
      (Nsurl.defragment P url) (db.addPath P scheme port h path fragment url).2.HasUrl := by
  have hw := urlWritten_addPath P scheme port path fragment url htree
  have hnodes := nodes_addPath (P := P) he scheme port path fragment url
  simp only [Db.addPath] at hnodes ⊢
  generalize addPath P scheme port path fragment url (db.nodes h) = r at hw hnodes ⊢
  have hhas : ∀ place w, (db.modifyHost h fun e => { e with nodes := r.2 }).HasUrl place w ↔
      if place.1 = h then Urldb.HasUrl r.2 place.2 w else db.HasUrl place w := by
    rintro ⟨h', d'⟩ w
    simp only [Db.HasUrl, hnodes]
    split <;> rfl
  refine ⟨?_, ?_, ?_⟩
  · rintro ⟨h', d'⟩ w' hd
    rw [hhas]
    split
    · next hh =>
      obtain rfl : h' = h := hh
      exact hw.keeps d' w' hd
    · exact hd
  · rintro ⟨h', d'⟩ w' hd
    rw [hhas] at hd
    split at hd
    · next hh =>
      obtain rfl : h' = h := hh
      refine (hw.new d' w' hd).imp id ?_
      rintro ⟨rfl, hw', hnone⟩
      exact ⟨rfl, hw', hnone⟩
    · exact Or.inl hd
  · obtain ⟨w', hthere⟩ := hw.there
    refine ⟨w', (hhas _ w').2 ?_⟩
    rwa [if_pos rfl]

theorem hasUrl_modifyCookies {g : List Cookie → List Cookie} {place : HostRef × PathRef} :
    (db.modifyCookies h g d).HasUrl place w ↔ db.HasUrl place w := by
  obtain ⟨h', d'⟩ := place
  cases d with
  | nil =>
    simp only [Db.HasUrl, Db.modifyCookies, Db.nodes, elim_modifyHost (keepsHost_modifyCookies g)]
    split
    · next hh => rw [hh]
    · rfl
  | cons k d =>
    simp only [Db.HasUrl, Db.modifyCookies, Db.nodes, elim_modifyHost (keepsHost_modifyNodes _)]
    split
    · next hh =>
      rw [hh]
      cases db.host h with
      | none => rfl
      | some e => exact hasUrl_modifyPath (keepsNode_cookies g) (fun _ => rfl) (k :: d)
    · rfl

theorem HostReady.hasUrl {host : Bytes} (hr : HostReady P host db h db') (place : HostRef × PathRef)
    (w : Nsurl) : db'.HasUrl place w ↔ db.HasUrl place w := by
  simp only [Db.HasUrl, hr.nodes]

/-- The node that a cookie is stored at, when it has one of its own: its URL is that of the request. -/
structure CookieNode (P : Platform) (scheme : Bytes) (c : Cookie) (url : Nsurl) (db : Db) (h : HostRef)
    (db' : Db) : Prop where
  host : ∃ e ∈ db'.hosts, e.ref = h
  name : lowerRef h = lowerRef (storedKey P (domainHost c.domain)) ∨
    lowerRef h = lowerRef (hostKey P (domainHost c.domain))
  url : UrlWritten db.HasUrl (h, cookieRef scheme c) (Nsurl.defragment P url) db'.HasUrl

theorem insertCookie_urls (hP : P.Caseless) (hinv : DbInvariant P db) (scheme : Bytes)
    (hs : IndexSafe P (domainHost c.domain)) :
    (c.domain.head? = some ('.' : UInt8) →
      ∀ place w, (insertCookie P now c scheme url db).HasUrl place w ↔ db.HasUrl place w) ∧
    (c.domain.head? ≠ some ('.' : UInt8) →
      ∃ h, CookieNode P scheme c url db h (insertCookie P now c scheme url db)) := by
  have hr := findOrAddHost_ready hP hinv hs
  constructor
  · intro hdot place w
    simp only [insertCookie, domainHost, hdot, if_true] at hr ⊢
    generalize findOrAddHost P (c.domain.drop 1) db = r at hr ⊢
    rw [← hr.hasUrl place w]
    exact hasUrl_modifyCookies (d := [])
  · intro hdot
    have hdomain : domainHost c.domain = c.domain := if_neg hdot
    rw [hdomain] at hr
    simp only [insertCookie, hdot, if_false]
    generalize findOrAddHost P c.domain db = r at hr ⊢
    obtain ⟨e, he⟩ := hr.exists_host
    obtain ⟨hname, hp⟩ := addPath_ready hr.kept.inv he scheme 0 c.path none url
    have hurl := urlWritten_dbAddPath (P := P) (hr.kept.inv.paths r.1) he scheme 0 c.path none url
    generalize r.2.addPath P scheme 0 r.1 c.path none url = q at hname hp hurl ⊢
    obtain ⟨e', he'⟩ := Option.isSome_iff_exists.1 ((hp.host r.1).trans (by rw [he]; rfl))
    obtain ⟨k, t, hkt⟩ := exists_cons_of_ne_nil (@chain_ne_nil scheme 0 _ (segments_ne_nil (skipSlash c.path)))
    have hisRef := hp.isRef
    rw [hkt] at hname hisRef
    have hk := modifyCookies_kept hp.kept.inv he' hisRef (g := storeCookie now c) fun l => storeCookie_unique
    rw [hname]
    refine ⟨r.1, ?_, ?_, ?_⟩
    · have hf := keepsHost_modifyNodes (modifyPath (k :: t) fun p => { p with cookies := storeCookie now c p.cookies })
      have hhost := @host_modifyHost q.2 _ hf r.1 r.1
      rw [he', Option.map_some] at hhost
      exact ⟨_, mem_of_host hhost⟩
    · rw [hdomain]
      exact hr.name
    · rw [cookieRef, if_neg hdot]
      rw [hkt] at hurl ⊢
      exact hurl.congr (fun place w => (hr.hasUrl place w).symm) fun place w => hasUrl_modifyCookies (d := k :: t)

theorem addUrl_urls (hP : P.Caseless) (hinv : DbInvariant P db)
    (hs : ∀ host, hostStrOf url = some host → IndexSafe P host) :
    ((addUrl P url db).2 = none → ∀ place w, (addUrl P url db).1.HasUrl place w ↔ db.HasUrl place w) ∧
    ∀ place, (addUrl P url db).2 = some place →
      UrlWritten db.HasUrl place (Nsurl.defragment P url) (addUrl P url db).1.HasUrl := by
  have hk₀ := (addToBloom_kept hinv url).1
  unfold addUrl
  have hsame : ∀ place w, (addToBloom url db).HasUrl place w ↔ db.HasUrl place w := fun _ _ => Iff.rfl
  generalize addToBloom url db = db₀ at hk₀ hsame
  have hnone : ∀ place : HostRef × PathRef, (none : Option (HostRef × PathRef)) = some place →
      UrlWritten db.HasUrl place (Nsurl.defragment P url) db₀.HasUrl := by
    intro place h
    cases h
  cases hplq : pathQueryOf url with
  | none => exact ⟨fun _ => hsame, hnone⟩
  | some plq =>
    cases hscheme : url.components.scheme with
    | none => exact ⟨fun _ => hsame, hnone⟩
    | some scheme =>
      cases hhost : hostStrOf url with
      | none => exact ⟨fun _ => hsame, hnone⟩
      | some host =>
        have hr := addHost_ready hP hk₀.inv (hs host hhost)
        simp only
        generalize addHost P host db₀ = r at hr ⊢
        obtain ⟨e, he⟩ := hr.exists_host
        have hname := (addPath_ready hr.kept.inv he scheme (portOf url) plq url.components.fragment url).1
        have hurl := urlWritten_dbAddPath (P := P) (hr.kept.inv.paths r.1) he scheme (portOf url) plq
          url.components.fragment url
        generalize r.2.addPath P scheme (portOf url) r.1 plq url.components.fragment url = q at hname hurl ⊢
        refine ⟨fun h => ?_, fun place h => ?_⟩
        · cases h
        · cases h
          rw [hname]
          exact hurl.congr (fun place w => ((hr.hasUrl place w).trans (hsame place w)).symm) fun _ _ => Iff.rfl

theorem deleteCookie_urls (domain path name : Bytes) (place : HostRef × PathRef) (w : Nsurl) :
    (deleteCookie domain path name db).HasUrl place w ↔ db.HasUrl place w := by
  have hnodes : ∀ e : HostPart, Urldb.HasUrl (deleteCookiePaths domain path name e).nodes place.2 w ↔
      Urldb.HasUrl e.nodes place.2 w := by
    intro e
    simp only [deleteCookiePaths]
    split
    · rfl
    · split
      · exact hasUrl_modifyPath (keepsNode_cookies _) (fun _ => rfl) _
      · rfl
  have hhost := @host_mapHosts db _ (keepsHost_deleteCookiePaths domain path name) place.1
  simp only [Db.HasUrl, Db.nodes, deleteCookie, hhost]
  cases db.host place.1 with
  | none => rfl
  | some e => exact hnodes e

/-! ## Node identity -/

theorem defragment_components (P : Platform) (url : Nsurl) :
    (Nsurl.defragment P url).components = { url.components with fragment := none } := by
  unfold Nsurl.defragment
  split
  · next h =>
    cases hc : url.components
    rw [hc] at h
    obtain rfl : _ = none := h
    rfl
  · rfl

theorem pathQueryOf_defragment (P : Platform) (url : Nsurl) :
    pathQueryOf (Nsurl.defragment P url) = pathQueryOf url := by
  have hsame : ∀ c : Nsurl.Components,
      Nsurl.componentsToString { c with fragment := none } (Nsurl.PATH ||| Nsurl.QUERY) =
        Nsurl.componentsToString c (Nsurl.PATH ||| Nsurl.QUERY) := by
    intro c
    obtain ⟨_, _, _, _, _, _, _, fragment, _⟩ := c
    cases fragment <;> rfl
  unfold pathQueryOf Nsurl.get
  rw [defragment_components, hsame]

theorem hostStrOf_defragment (P : Platform) (url : Nsurl) : hostStrOf (Nsurl.defragment P url) = hostStrOf url := by
  unfold hostStrOf
  rw [defragment_components]

theorem portOf_defragment (P : Platform) (url : Nsurl) : portOf (Nsurl.defragment P url) = portOf url := by
  unfold portOf
  rw [defragment_components]

theorem isNodeOf_defragment : IsNodeOf P (Nsurl.defragment P url) h d ↔ IsNodeOf P url h d := by
  unfold IsNodeOf
  rw [hostStrOf_defragment, pathQueryOf_defragment, portOf_defragment, defragment_components]

/-- Each node has a URL of its own place: its host, its scheme, its port and its segments. -/
def NodeIdentity (P : Platform) (db : Db) : Prop :=
  ∀ place w, db.HasUrl place w → IsNodeOf P w place.1 place.2

/-- A URL with the default port. What is said of its host and path holds of every URL with a host that
`nsurl_create` makes, but for the length. -/
def PlainUrl (url : Nsurl) : Prop :=
  url.components.port = none ∧ ∀ host, hostStrOf url = some host → host.length ≤ 255 ∧
    (∃ path, pathQueryOf url = some (('/' : UInt8) :: path)) ∧
    url.components.scheme ≠ some (str "mailto")

/-- The path of the cookie is that of the URL with its query, or its node has a URL already. -/
def OwnNode (P : Platform) (url : Nsurl) (c : Cookie) (db : Db) : Prop :=
  (∃ plq, pathQueryOf url = some plq ∧ segments (skipSlash c.path) = segments (skipSlash plq)) ∨
    ∃ h w, lowerRef h = lowerRef (hostKey P c.domain) ∧
      db.HasUrl (h, cookieRef (url.components.scheme.getD []) c) w

/-- Calls that keep the identity of nodes. A URL is added where there is none, or only the same one. -/
def identityCall (P : Platform) : Call → Db → Prop
  | .addUrl url node, db => safeCall P (.addUrl url node) db ∧ PlainUrl url ∧
    ∀ place w, IsNodeOf P url place.1 place.2 → db.HasUrl place w → w = Nsurl.defragment P url
  | .setCookie now header url referer ok, db =>
    safeCall P (.setCookie now header url referer ok) db ∧ PlainUrl url ∧
      ∀ c ∈ storedCookies P now header url referer, c.domain.head? ≠ some ('.' : UInt8) →
        OwnNode P url c db
  | .getCookie now url b text, db => safeCall P (.getCookie now url b text) db ∧ PlainUrl url
  | .deleteCookie _ _ _, _ => True
  | .loadCookie _ _ _ _, _ => False

theorem identityCall.safe {op : Call} (h : identityCall P op db) : safeCall P op db := by
  cases op with
  | addUrl => exact h.1
  | setCookie => exact h.1
  | getCookie => exact h.1
  | deleteCookie => exact h
  | loadCookie => exact h.elim

theorem PlainUrl.portOf (h : PlainUrl url) : portOf url = 0 := by
  unfold Urldb.portOf
  rw [h.1]

theorem UrlWritten.nodeIdentity {place : HostRef × PathRef} (hid : NodeIdentity P db)
    (hw : UrlWritten db.HasUrl place w db'.HasUrl)
    (hnode : (∀ w', ¬ db.HasUrl place w') → IsNodeOf P w place.1 place.2) : NodeIdentity P db' := by
  intro place' w' hw'
  rcases hw.new place' w' hw' with hold | ⟨rfl, rfl, hnone⟩
  · exact hid place' w' hold
  · exact hnode hnone

theorem addUrl_isNodeOf (hP : P.Caseless) (hinv : DbInvariant P db)
    (hs : ∀ host, hostStrOf url = some host → IndexSafe P host) (hplain : PlainUrl url)
    {place : HostRef × PathRef} (hadd : addUrl P url db = (db', some place)) :
    IsNodeOf P url place.1 place.2 := by
  obtain ⟨h, d⟩ := place
  obtain ⟨-, scheme, host, plq, hscheme, hhost, hplq, -, hname, -, rfl⟩ := addUrl_stored hP hinv hs hadd
  obtain ⟨hlen, ⟨path, hpath⟩, -⟩ := hplain.2 host hhost
  obtain rfl := Option.some.inj (hplq.symm.trans hpath)
  rw [storedKey_eq_hostKey hlen] at hname
  exact ⟨scheme, host, path, hscheme, hhost, hpath, hname, rfl⟩

theorem addUrl_nodeIdentity (hP : P.Caseless) (hinv : DbInvariant P db)
    (hs : ∀ host, hostStrOf url = some host → IndexSafe P host) (hplain : PlainUrl url)
    (hid : NodeIdentity P db) : NodeIdentity P (addUrl P url db).1 := by
  obtain ⟨hnone, hsome⟩ := addUrl_urls hP hinv hs
  cases hadd : (addUrl P url db).2 with
  | none =>
    intro place w hw
    exact hid place w ((hnone hadd place w).1 hw)
  | some place =>
    apply (hsome place hadd).nodeIdentity hid
    intro _
    exact isNodeOf_defragment.2 (addUrl_isNodeOf hP hinv hs hplain (Prod.ext rfl hadd))

theorem insertCookie_nodeIdentity (hP : P.Caseless) (hinv : DbInvariant P db)
    (hs : IndexSafe P (domainHost c.domain)) (hplain : PlainUrl url) {scheme host : Bytes}
    (hscheme : url.components.scheme = some scheme) (hhost : hostStrOf url = some host)
    (hdomain : c.domain.head? ≠ some ('.' : UInt8) → c.domain = host ∧ OwnNode P url c db)
    (hid : NodeIdentity P db) :
    NodeIdentity P (insertCookie P now c scheme (Nsurl.defragment P url) db) ∧ ∀ place w, db.HasUrl place w →
        (insertCookie P now c scheme (Nsurl.defragment P url) db).HasUrl place w := by
  obtain ⟨hdotted, hplace⟩ := @insertCookie_urls P db now (Nsurl.defragment P url) c hP hinv scheme hs
  by_cases hdot : c.domain.head? = some ('.' : UInt8)
  · have hsame := hdotted hdot
    exact ⟨fun place w hw => hid place w ((hsame place w).1 hw), fun place w hw =>
      (hsame place w).2 hw⟩
  · obtain ⟨h, ⟨e, he, href⟩, hname, hurl⟩ := hplace hdot
    obtain ⟨hdom, hown⟩ := hdomain hdot
    obtain ⟨hlen, ⟨path, hpath⟩, -⟩ := hplain.2 host hhost
    rw [domainHost, if_neg hdot, hdom, storedKey_eq_hostKey hlen, or_self] at hname
    refine ⟨hurl.nodeIdentity hid fun hnone => ?_, hurl.keeps⟩
    rw [isNodeOf_defragment, isNodeOf_defragment]
    rcases hown with ⟨plq, hplq, hsegs⟩ | ⟨h', w, hname', hw⟩
    · obtain rfl := Option.some.inj (hplq.symm.trans hpath)
      refine ⟨scheme, host, path, hscheme, hhost, hpath, hname, ?_⟩
      rw [cookieRef, if_neg hdot, hsegs, hplain.portOf]
      rfl
    · -- the node with a URL is the one that was found
      rw [hdom] at hname'
      rw [hscheme, Option.getD_some] at hw
      have hkept := @insertCookie_spec P db now (Nsurl.defragment P url) hP hinv scheme c hs
      obtain ⟨_, hstored⟩ := hkept
      obtain ⟨p, hp, -⟩ := hurl.keeps _ _ hw
      obtain ⟨e', he', -⟩ := mem_nodes hp
      have hh : h = h' := by
        refine hstored.kept.inv.index.forest.ref_eq_of_normRef (Or.inr ⟨e, he, href⟩)
          (Or.inr ⟨e', mem_of_host he'⟩) (hname.trans hname'.symm)
      rw [← hh] at hw
      exact absurd hw (hnone w)

theorem OwnNode.mono (h : OwnNode P url c db)
    (hkeeps : ∀ place w, db.HasUrl place w → db'.HasUrl place w) : OwnNode P url c db' := by
  rcases h with h | ⟨r, w, hname, hw⟩
  · exact Or.inl h
  · exact Or.inr ⟨r, w, hname, hkeeps _ _ hw⟩

theorem insertCookies_nodeIdentity (hP : P.Caseless) {cs : List Cookie} {scheme host : Bytes}
    (hscheme : url.components.scheme = some scheme) (hhost : hostStrOf url = some host)
    (hplain : PlainUrl url) (hs : ∀ c ∈ cs, IndexSafe P (domainHost c.domain))
    (hdomain : ∀ c ∈ cs, c.domain.head? ≠ some ('.' : UInt8) → c.domain = host ∧ OwnNode P url c db)
    (hinv : DbInvariant P db) (hid : NodeIdentity P db) :
    NodeIdentity P (insertCookies P now url cs db) ∧
      ∀ place w, db.HasUrl place w → (insertCookies P now url cs db).HasUrl place w := by
  induction cs generalizing db with
  | nil => exact ⟨hid, fun _ _ hw => hw⟩
  | cons c cs ih =>
    obtain ⟨hc, hcs⟩ := forall_mem_cons.1 hs
    obtain ⟨hdc, hdcs⟩ := forall_mem_cons.1 hdomain
    obtain ⟨h, hstored⟩ := @insertCookie_spec P db now (Nsurl.defragment P url) hP hinv scheme c hc
    obtain ⟨hid₁, hkeeps⟩ :=
      @insertCookie_nodeIdentity P db now url c hP hinv hc hplain scheme host hscheme hhost hdc hid
    have hcons : insertCookies P now url (c :: cs) db =
        insertCookies P now url cs (insertCookie P now c scheme (Nsurl.defragment P url) db) := by
      unfold insertCookies
      rw [foldl_cons, hscheme]
      rfl
    rw [hcons]
    obtain ⟨hid', hkeeps'⟩ := ih hcs (fun x hx hd => ⟨(hdcs x hx hd).1, (hdcs x hx hd).2.mono hkeeps⟩)
      hstored.kept.inv hid₁
    exact ⟨hid', fun place w hw => hkeeps' place w (hkeeps place w hw)⟩

theorem storedCookies_scheme {header : Bytes} {referer : Option Nsurl}
    (hc : c ∈ storedCookies P now header url referer) :
    ∃ scheme, url.components.scheme = some scheme := by
  cases hs : url.components.scheme with
  | some scheme => exact ⟨scheme, rfl⟩
  | none =>
    simp only [storedCookies, hs] at hc
    cases hc

theorem step_nodeIdentity (hP : P.Caseless) {op : Call} (hcall : identityCall P op db)
    (hstep : Call.Step P op db db') (hinv : DbInvariant P db) (hid : NodeIdentity P db) :
    NodeIdentity P db' ∧ ∀ place w, db.HasUrl place w → db'.HasUrl place w := by
  have hadded : ∀ url, (∀ host, hostStrOf url = some host → IndexSafe P host) → PlainUrl url →
      NodeIdentity P (addUrl P url db).1 ∧ ∀ place w, db.HasUrl place w → (addUrl P url db).1.HasUrl place w := by
    intro url hs hplain
    refine ⟨addUrl_nodeIdentity hP hinv hs hplain hid, fun place w hw => ?_⟩
    obtain ⟨hnone, hsome⟩ := addUrl_urls hP hinv hs
    cases hadd : (addUrl P url db).2 with
    | none => exact (hnone hadd place w).2 hw
    | some place' => exact (hsome place' hadd).keeps place w hw
  cases hstep with
  | addUrl hadd =>
    have hres := hadded _ hcall.1 hcall.2.1
    rwa [hadd] at hres
  | getCookie hget =>
    have hres := hadded _ hcall.1 hcall.2
    rw [getCookie] at hget
    rwa [(Prod.mk.inj hget).1] at hres
  | deleteCookie =>
    exact ⟨fun place w hw => hid place w ((deleteCookie_urls _ _ _ place w).1 hw),
      fun place w hw => (deleteCookie_urls _ _ _ place w).2 hw⟩
  | loadCookie => exact hcall.elim
  | @setCookie now header url referer ok _ _ hset =>
    obtain ⟨hsafe, hplain, hown⟩ := hcall
    rw [setCookie_eq_insertCookies hset]
    cases hcs : storedCookies P now header url referer with
    | nil => exact ⟨hid, fun _ _ hw => hw⟩
    | cons c cs =>
      have hc : c ∈ storedCookies P now header url referer := by
        rw [hcs]
        exact mem_cons_self
      obtain ⟨scheme, hscheme⟩ := storedCookies_scheme hc
      obtain ⟨host, path, hhost, -⟩ := mem_storedCookies hc
      have hstr : hostStrOf url = some (cstr host) := by
        unfold hostStrOf
        rw [hhost]
      rw [← hcs]
      apply insertCookies_nodeIdentity hP hscheme hstr hplain _ _ hinv hid
      · intro x hx
        obtain ⟨host', path', hhost', -, hv, hd⟩ := mem_storedCookies hx
        exact indexSafe_domainHost hP (hsafe host' hhost') (validCookie_domain hv) hd
      · intro x hx hdot
        obtain ⟨host', path', hhost', -, hv, hd⟩ := mem_storedCookies hx
        obtain rfl := Option.some.inj (hhost.symm.trans hhost')
        exact ⟨hd.resolve_left hdot, hown x hx hdot⟩

/-- What a run keeps: each added URL is the URL of its node. -/
structure IdentityInv (P : Platform) (ops : List Call) (db : Db) : Prop where
  inv : DbInvariant P db
  identity : NodeIdentity P db
  added : ∀ u place, .addUrl u (some place) ∈ ops →
    PlainUrl u ∧ db.HasUrl place (Nsurl.defragment P u)

theorem run_identityInv (hP : P.Caseless) {ops : List Call}
    (hr : (calls P).Run (identityCall P) ops db) : IdentityInv P ops db := by
  apply hr.traceInvariant
  · rintro db rfl
    exact ⟨dbInvariant_empty, fun _ _ ⟨_, hp, _⟩ => absurd hp not_mem_nil, fun _ _ h => absurd h not_mem_nil⟩
  · intro ops op db db' hcall hstep ⟨hinv, hid, hadded⟩
    have hkept := step_kept hP hcall.safe hstep hinv
    obtain ⟨hid', hkeeps⟩ := step_nodeIdentity hP hcall hstep hinv hid
    refine ⟨hkept.inv, hid', fun u place hmem => ?_⟩
    rcases mem_append.1 hmem with hmem | hmem
    · exact ⟨(hadded u place hmem).1, hkeeps _ _ (hadded u place hmem).2⟩
    · obtain rfl := mem_singleton.1 hmem
      cases hstep with
      | addUrl hadd =>
        obtain ⟨hsafe, hplain, hsame⟩ := hcall
        have hnode := addUrl_isNodeOf hP hinv hsafe hplain hadd
        have hurl := (addUrl_urls hP hinv hsafe).2 place (by rw [hadd])
        rw [hadd] at hurl
        obtain ⟨w, hw⟩ := hurl.there
        refine ⟨hplain, ?_⟩
        rcases hurl.new _ w hw with hold | ⟨-, rfl, -⟩
        · rwa [hsame place w hnode hold] at hw
        · exact hw

/-- After a run of calls that keep the identity of nodes, each node has a URL of its own place, and a URL
that was added is what a lookup of it returns, without the fragment. -/
theorem run_nodeIdentity (hP : P.Caseless) {ops : List Call}
    (hr : (calls P).Run (identityCall P) ops db) : NodeIdentity P db ∧
      ∀ u place, .addUrl u (some place) ∈ ops →
        getUrl P u db = some (Nsurl.defragment P u) := by
  obtain ⟨hinv, hid, hadded⟩ := run_identityInv hP hr
  refine ⟨hid, fun u place hmem => ?_⟩
  obtain ⟨hplain, hhas⟩ := hadded u place hmem
  have hstored := (run_urlStored hP (hr.mono fun _ _ => identityCall.safe)).2 u place.1 place.2 hmem
  obtain ⟨hb, scheme, host, plq, hscheme, hhost, hplq, htree, hname, href, hd⟩ := hstored
  obtain ⟨hlen, ⟨path, hpath⟩, hmail⟩ := hplain.2 host hhost
  obtain rfl := Option.some.inj (hplq.symm.trans hpath)
  have hport : (portOf u).toNat < 65536 := by
    rw [hplain.portOf]
    decide
  rw [hd] at href
  rw [storedKey_eq_hostKey hlen] at hname
  obtain ⟨p, hp, hfind, hpref⟩ :=
    findUrl_of_stored hinv hmail hport hb hscheme hhost hplq htree hname href
  obtain ⟨q, hq, hqref, hurl⟩ := hhas
  obtain rfl := (hinv.paths place.1).eq_of_ref hq hp (hqref.trans (hd.trans hpref.symm))
  unfold getUrl
  rw [hfind]
  exact hurl

theorem run_nodeIdentity_one : ∃ url place db,
    (calls .plain).AnyRun [.addUrl url (some place)] db ∧ NodeIdentity .plain db ∧
      getUrl .plain url db = some (Nsurl.defragment .plain url) := by
  obtain ⟨url, -, ht⟩ := Nsurl.exists_ok_of_any
    (x := Nsurl.create .plain (fun _ => 0) (str "http://h.co/a#b"))
    (p := fun url => url.components.scheme == some (str "http") && url.components.port == none &&
      hostStrOf url == some (str "h.co") && pathQueryOf url == some (str "/a") &&
      (addUrl .plain url Db.empty).2.isSome) (by decide +kernel)
  simp only [Bool.and_eq_true, beq_iff_eq] at ht
  obtain ⟨⟨⟨⟨hscheme, hport⟩, hhost⟩, hplq⟩, hadd⟩ := ht
  obtain ⟨place, hadd⟩ := Option.isSome_iff_exists.1 hadd
  have hstep : Call.Step .plain (.addUrl url (some place)) Db.empty (addUrl .plain url Db.empty).1 :=
    .addUrl (Prod.ext rfl hadd)
  have hcall : identityCall .plain (.addUrl url (some place)) Db.empty := by
    refine ⟨?_, ⟨hport, ?_⟩, fun _ _ _ hnode => absurd hnode.choose_spec.1 not_mem_nil⟩
    · intro host hh
      obtain rfl := Option.some.inj (hhost.symm.trans hh)
      decide +kernel
    · intro host hh
      obtain rfl := Option.some.inj (hhost.symm.trans hh)
      refine ⟨by decide, ⟨_, hplq⟩, ?_⟩
      rw [hscheme]
      decide
  obtain ⟨hid, hget⟩ := run_nodeIdentity Platform.plain_caseless (.snoc (.start rfl) hcall hstep)
  exact ⟨url, place, _, .snoc (.start rfl) trivial hstep, hid, hget url place (mem_singleton_self _)⟩

/-- The node of a cookie's path gets the URL of the request, and keeps it when its own URL is added. -/
theorem getUrl_cookieNode : ¬ ∀ ops db, (calls .plain).AnyRun ops db →
    (∀ op ∈ ops, (∃ url node, op = .addUrl url node ∧ url.components.port = none) ∨
      ∃ now header url referer ok, op = .setCookie now header url referer ok ∧
        url.components.port = none) →
    NodeIdentity .plain db ∧ ∀ u place, .addUrl u (some place) ∈ ops →
      getUrl .plain u db = some (Nsurl.defragment .plain u) := by
  intro h
  obtain ⟨set, -, hs⟩ := Nsurl.exists_ok_of_any
    (x := Nsurl.create .plain (fun _ => 0) (str "http://h.co/x/y"))
    (p := fun set => (Nsurl.create .plain (fun _ => 0) (str "http://h.co/x")).toOption.any fun url =>
      set.components.port == none && url.components.port == none &&
        (setCookie .plain 0 (str "a=b") set none Db.empty).any fun r =>
          (addUrl .plain url r.1).2.isSome &&
            getUrl .plain url (addUrl .plain url r.1).1 != some (Nsurl.defragment .plain url))
    (by decide +kernel)
  obtain ⟨url, -, ht⟩ := exists_some_of_any hs
  simp only [Bool.and_eq_true, beq_iff_eq] at ht
  obtain ⟨⟨hset, hurl⟩, hrun⟩ := ht
  obtain ⟨⟨db, ok⟩, hstep, hrun⟩ := exists_some_of_any hrun
  rw [Bool.and_eq_true, bne_iff_ne] at hrun
  obtain ⟨hadd, hne⟩ := hrun
  obtain ⟨place, hadd⟩ := Option.isSome_iff_exists.1 hadd
  have hr : (calls .plain).AnyRun
      [.setCookie 0 (str "a=b") set none ok, .addUrl url (some place)] (addUrl .plain url db).1 :=
    .snoc (.snoc (.start rfl) trivial (Call.Step.setCookie hstep)) trivial
      (Call.Step.addUrl (Prod.ext rfl hadd))
  refine hne ((h _ _ hr ?_).2 url place (mem_cons_of_mem _ (mem_singleton_self _)))
  intro op hop
  rcases mem_cons.1 hop with rfl | hop
  · exact Or.inr ⟨_, _, _, _, _, rfl, hset⟩
  · exact Or.inl ⟨_, _, mem_singleton.1 hop, hurl⟩

end Nami.Urldb
