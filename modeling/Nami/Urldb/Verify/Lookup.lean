import Nami.Nsurl.Verify.Join
import Nami.Urldb.Verify.Calls

/-!
# Finding what was added

`run_inv`: the invariant of the database holds after every sequence of calls whose hosts the index can
hold (`safeCall`). `findUrl_exact` and `findUrl_of_stored` are the two halves of an exact lookup: what is
found is the node of the URL, and the node of a URL is found.
-/

namespace Nami.Urldb

open List

variable {P : Platform} {db db' : Db} {h : HostRef} {d : PathRef} {url : Nsurl}

/-! ## Runs -/

/-- The hosts that a call adds are `IndexSafe`. For a Set-Cookie header these are the host of the URL and
what follows each dot in it. -/
def safeCall (P : Platform) : Call → Db → Prop
  | .addUrl url _, _ | .getCookie _ url _ _, _ => ∀ host, hostStrOf url = some host → IndexSafe P host
  | .setCookie _ _ url _ _, _ => ∀ host, url.components.host = some host →
      ∀ s ∈ domainsOf (cstr host) ++ domainsOf host, IndexSafe P s
  | .deleteCookie _ _ _, _ => True
  | .loadCookie _ c _ _, _ => IndexSafe P (domainHost c.domain)

theorem validCookie_domain {host path : Bytes} {c : Cookie} (h : validCookie P host path c = true) :
    domainMatches P host c.domain = true :=
  (Bool.and_eq_true_iff.1 h).2

theorem step_kept (hP : P.Caseless) {op : Call} (hsafe : safeCall P op db)
    (hstep : Call.Step P op db db') (hinv : DbInvariant P db) : Kept P db db' := by
  cases hstep with
  | addUrl hadd =>
    have := (addUrl_spec hP hinv hsafe).kept
    rwa [hadd] at this
  | setCookie hset =>
    rw [setCookie_eq_insertCookies hset]
    refine insertCookies_kept hP (fun c hc => ?_) hinv
    obtain ⟨host, path, hhost, -, hv, hd⟩ := mem_storedCookies hc
    exact indexSafe_domainHost hP (hsafe host hhost) (validCookie_domain hv) hd
  | getCookie hget =>
    have := (addUrl_spec hP hinv hsafe).kept
    rw [getCookie] at hget
    rwa [(Prod.mk.inj hget).1] at this
  | deleteCookie => exact (deleteCookie_spec hinv _ _ _).1
  | loadCookie =>
    obtain ⟨h, hc⟩ := insertCookie_spec hP hinv _ hsafe
    exact hc.kept

/-! ## Lookups -/

theorem findUrl_eq_some_iff {p : PathData} : findUrl P url db = some (h, p) ↔
    bloomRejects url db = false ∧ ∃ scheme host plq, url.components.scheme = some scheme ∧
      scheme ≠ str "mailto" ∧ hostStrOf url = some host ∧ findHost P host db = some h ∧
      pathQueryOf url = some plq ∧
      matchPath (db.nodes h) plq scheme (portOf url).toUInt16 = some p := by
  cases hb : bloomRejects url db
  · simp only [findUrl, hb, Bool.false_eq_true, if_false, Option.bind_eq_bind, Option.bind_eq_some_iff, true_and]
    constructor
    · rintro ⟨scheme, hscheme, hrest⟩
      split at hrest
      · cases hrest
      · next hne =>
        simp only [Option.bind_eq_some_iff, Option.some.injEq, Prod.mk.injEq] at hrest
        obtain ⟨host, hhost, h', hh, plq, hplq, p', hp, rfl, rfl⟩ := hrest
        exact ⟨scheme, host, plq, hscheme, hne, hhost, hh, hplq, hp⟩
    · rintro ⟨scheme, host, plq, hscheme, hne, hhost, hh, hplq, hp⟩
      refine ⟨scheme, hscheme, ?_⟩
      simp only [hne, if_false, Option.bind_eq_some_iff]
      exact ⟨host, hhost, h, hh, plq, hplq, p, hp, rfl⟩
  · simp [findUrl, hb]

/-- The node is that of the URL: the labels of its host, ignoring case, its scheme, its port number and
the segments of its path and query. -/
def IsNodeOf (P : Platform) (url : Nsurl) (h : HostRef) (d : PathRef) : Prop :=
  ∃ scheme host path, url.components.scheme = some scheme ∧ hostStrOf url = some host ∧
    pathQueryOf url = some (('/' : UInt8) :: path) ∧ lowerRef h = lowerRef (hostKey P host) ∧
    d = chain scheme (portOf url) (segments path)

/-- Where the path of the URL leaves the tree of its host, a sibling is taken for the missing one. -/
def UrlShadowed (P : Platform) (url : Nsurl) (db : Db) : Prop :=
  ∃ scheme host path, url.components.scheme = some scheme ∧ hostStrOf url = some host ∧
    pathQueryOf url = some (('/' : UInt8) :: path) ∧ ∃ e ∈ db.hosts, lowerRef e.ref = lowerRef (hostKey P host) ∧
      Shadowed e.nodes scheme (portOf url) (segments path)

theorem matchPath_eq_some {nodes : List PathData} {plq scheme : Bytes} {port : UInt16} {p : PathData}
    (h : matchPath nodes plq scheme port = some p) :
    ∃ path, plq = ('/' : UInt8) :: path ∧ matchSegments nodes scheme port [] (segments path) = some p := by
  cases plq with
  | nil => cases h
  | cons c path =>
    simp only [matchPath] at h
    split at h
    · next hc =>
      subst hc
      exact ⟨path, rfl, h⟩
    · cases h

theorem mem_nodes {p : PathData} (hp : p ∈ db.nodes h) : ∃ e, db.host h = some e ∧ p ∈ e.nodes := by
  rw [Db.nodes] at hp
  cases he : db.host h with
  | none => rw [he] at hp; cases hp
  | some e => rw [he] at hp; exact ⟨e, rfl, hp⟩

theorem findUrl_exact (hinv : DbInvariant P db) (hport : (portOf url).toNat < 65536)
    (hclear : bloomRejects url db = true ∨ ¬ UrlShadowed P url db) {p : PathData}
    (hf : findUrl P url db = some (h, p)) : IsNodeOf P url h p.ref ∧ p ∈ db.nodes h := by
  obtain ⟨hb, scheme, host, plq, hscheme, -, hhost, hh, hplq, hm⟩ := findUrl_eq_some_iff.1 hf
  obtain ⟨path, rfl, hm⟩ := matchPath_eq_some hm
  have hname := ((findHost_eq_some_iff hinv.index).1 hh).2
  have hshadow : ¬ Shadowed (db.nodes h) scheme (portOf url) (segments path) := by
    intro hs
    obtain ⟨before, segment, after, hsegs, href, hno, q, hq, hpre⟩ := hs
    obtain ⟨e, he, -⟩ := mem_nodes (mem_children.1 hq).1
    obtain ⟨hmem, rfl⟩ := (host_eq_some_iff hinv.index.forest).1 he
    rw [Db.nodes, he, Option.elim_some] at href hno hq
    exact (hclear.resolve_left (by rw [hb]; exact Bool.false_ne_true))
      ⟨scheme, host, path, hscheme, hhost, hplq, e, hmem, hname, before, segment, after, hsegs, href, hno, q, hq, hpre⟩
  obtain ⟨hp, href⟩ := (hinv.paths h).matchSegments_exact hport hshadow hm
  exact ⟨⟨scheme, host, path, hscheme, hhost, hplq, hname, href⟩, hp⟩

/-- What `nsurl_create` promises of an http, https or ftp URL with a host. -/
structure WebUrl (url : Nsurl) : Prop where
  scheme : url.components.scheme = some (str "http") ∨ url.components.scheme = some (str "https") ∨
    url.components.scheme = some (str "ftp")
  host : url.components.host.isSome
  path : ∃ path, url.components.path = some path ∧ path.head? = some ('/' : UInt8)

theorem create_webUrl {mem : Nsurl.Mem} {urlS : Bytes} (h : Nsurl.create P mem urlS = .ok url)
    (hscheme : url.components.scheme = some (str "http") ∨
      url.components.scheme = some (str "https") ∨ url.components.scheme = some (str "ftp"))
    (hhost : url.components.host.isSome) : WebUrl url := by
  refine ⟨hscheme, hhost, Nsurl.create_rooted h hhost (Nsurl.create_not_mailto h ?_)⟩
  intro scheme hs
  rcases hscheme with hw | hw | hw <;> rw [Option.some.inj (hs.symm.trans hw)] <;> decide

theorem pathQueryOf_eq {path : Bytes} (hpath : url.components.path = some path) (hne : path ≠ []) :
    pathQueryOf url = some (cstr (path ++ url.components.query.elim [] (str "?" ++ ·))) := by
  have hget : Nsurl.getString url.components (Nsurl.getStringFlags url.components (Nsurl.PATH ||| Nsurl.QUERY)) =
      path ++ url.components.query.elim [] (str "?" ++ ·) := by
    have h0 : ∀ c, Nsurl.wanted c (Nsurl.PATH ||| Nsurl.QUERY) Nsurl.SCHEME = false ∧
        Nsurl.wanted c (Nsurl.PATH ||| Nsurl.QUERY) Nsurl.USERNAME = false ∧
        Nsurl.wanted c (Nsurl.PATH ||| Nsurl.QUERY) Nsurl.PASSWORD = false ∧
        Nsurl.wanted c (Nsurl.PATH ||| Nsurl.QUERY) Nsurl.HOST = false ∧
        Nsurl.wanted c (Nsurl.PATH ||| Nsurl.QUERY) Nsurl.PORT = false ∧
        Nsurl.wanted c (Nsurl.PATH ||| Nsurl.QUERY) Nsurl.FRAGMENT = false := by
      intro c
      cases c <;> exact ⟨rfl, rfl, rfl, rfl, rfl, rfl⟩
    have h1 : Nsurl.wanted (some path) (Nsurl.PATH ||| Nsurl.QUERY) Nsurl.PATH = true := rfl
    cases hq : url.components.query with
    | none =>
      have h2 : Nsurl.wanted none (Nsurl.PATH ||| Nsurl.QUERY) Nsurl.QUERY = false := rfl
      simp [Nsurl.getString, Nsurl.getStringFlags, h0, h1, h2, hpath, hq]
    | some q =>
      have h2 : Nsurl.wanted (some q) (Nsurl.PATH ||| Nsurl.QUERY) Nsurl.QUERY = true := rfl
      simp [Nsurl.getString, Nsurl.getStringFlags, h0, h1, h2, hpath, hq]
  have hlen := Nsurl.length_getString (c := url.components)
    (f := Nsurl.getStringFlags url.components (Nsurl.PATH ||| Nsurl.QUERY))
    Nsurl.getStringFlags_query Nsurl.getStringFlags_fragment
  have hpos : Nsurl.stringLength url.components
      (Nsurl.getStringFlags url.components (Nsurl.PATH ||| Nsurl.QUERY)) ≠ 0 := by
    rw [← hlen, hget, length_append]
    have := length_pos_of_ne_nil hne
    omega
  unfold pathQueryOf
  simp only [Nsurl.get, Nsurl.componentsToString, Nsurl.getStringData, hpos, if_false, hget]

theorem WebUrl.pathQueryOf (hw : WebUrl url) : ∃ path, pathQueryOf url = some (('/' : UInt8) :: path) := by
  obtain ⟨path, hpath, hhead⟩ := hw.path
  obtain ⟨rest, rfl⟩ := List.head?_eq_some_iff.1 hhead
  rw [pathQueryOf_eq hpath (cons_ne_nil _ _), cons_append, cstr, takeWhile_cons_of_pos (by decide)]
  exact ⟨_, rfl⟩

theorem WebUrl.not_mailto (hw : WebUrl url) {scheme : Bytes}
    (hs : url.components.scheme = some scheme) : scheme ≠ str "mailto" := by
  rcases hw.scheme with h | h | h <;> rw [hs] at h <;> rw [Option.some.inj h] <;> decide

theorem findUrl_of_stored (hinv : DbInvariant P db)
    (hmail : url.components.scheme ≠ some (str "mailto")) (hport : (portOf url).toNat < 65536)
    (hb : bloomKnows db url.hash) {scheme host path : Bytes}
    (hscheme : url.components.scheme = some scheme) (hhost : hostStrOf url = some host)
    (hplq : pathQueryOf url = some (('/' : UInt8) :: path))
    (htree : h ∈ (db.searchTrees (getSearchTree P host)).toList)
    (hname : lowerRef h = lowerRef (hostKey P host))
    (href : pathForest.IsRef (db.nodes h) (chain scheme (portOf url) (segments path))) :
    ∃ p ∈ db.nodes h, findUrl P url db = some (h, p) ∧ p.ref = chain scheme (portOf url) (segments path) := by
  obtain ⟨p, hmem, hp, hm⟩ := (hinv.paths h).matchSegments_of_isRef (d := []) hport
    (segments_ne_nil path) (by rwa [append_nil])
  rw [append_nil] at hp
  have hne : scheme ≠ str "mailto" := fun he => hmail (he ▸ hscheme)
  refine ⟨p, hmem, findUrl_eq_some_iff.2 ⟨?_, scheme, host, _, hscheme, hne, hhost,
    (findHost_eq_some_iff hinv.index).2 ⟨htree, hname⟩, hplq, ?_⟩, hp⟩
  · obtain ⟨bloom, hbloom, hk⟩ := hb
    simp [bloomRejects, hbloom, hk]
  · rw [matchPath, if_pos rfl, hm]

/-! ## Exact lookup -/

/-- What a database owes to a URL that was added. -/
def UrlStored (P : Platform) (url : Nsurl) (h : HostRef) (d : PathRef) (db : Db) : Prop :=
  bloomKnows db url.hash ∧ ∃ scheme host plq, url.components.scheme = some scheme ∧
    hostStrOf url = some host ∧ pathQueryOf url = some plq ∧
    h ∈ (db.searchTrees (getSearchTree P host)).toList ∧ lowerRef h = lowerRef (storedKey P host) ∧
    pathForest.IsRef (db.nodes h) d ∧ d = chain scheme (portOf url) (segments (skipSlash plq))

theorem UrlStored.mono (hs : UrlStored P url h d db) (he : Extends db db') : UrlStored P url h d db' := by
  obtain ⟨hb, scheme, host, plq, hscheme, hhost, hplq, htree, hname, href, hd⟩ := hs
  exact ⟨he.bloom _ hb, scheme, host, plq, hscheme, hhost, hplq, he.trees _ _ htree, hname, he.nodes _ _ href, hd⟩

theorem addUrl_stored (hP : P.Caseless) (hinv : DbInvariant P db)
    (hs : ∀ host, hostStrOf url = some host → IndexSafe P host)
    (hadd : addUrl P url db = (db', some (h, d))) : UrlStored P url h d db' := by
  have ha := addUrl_spec hP hinv hs
  have hsome := hadd
  unfold addUrl at hsome
  rw [hadd] at ha
  refine ⟨ha.bloom, ?_⟩
  cases hplq : pathQueryOf url with
  | none => rw [hplq] at hsome; cases hsome
  | some plq =>
    cases hscheme : url.components.scheme with
    | none => rw [hplq, hscheme] at hsome; cases hsome
    | some scheme =>
      cases hhost : hostStrOf url with
      | none => rw [hplq, hscheme, hhost] at hsome; cases hsome
      | some host =>
        obtain ⟨h', htree, hname, href, hnode⟩ := ha.node scheme host plq hscheme hhost hplq
        cases hnode
        exact ⟨scheme, host, plq, rfl, rfl, rfl, htree, hname, href, rfl⟩

theorem run_urlStored (hP : P.Caseless) {ops : List Call} (hr : (calls P).Run (safeCall P) ops db) :
    DbInvariant P db ∧ ∀ url h d, .addUrl url (some (h, d)) ∈ ops → UrlStored P url h d db := by
  refine hr.traceInvariant (I := fun ops db => DbInvariant P db ∧
    ∀ url h d, .addUrl url (some (h, d)) ∈ ops → UrlStored P url h d db) ?_ ?_
  · rintro db rfl
    exact ⟨dbInvariant_empty, fun _ _ _ h => by cases h⟩
  · rintro ops op db db' hsafe hstep ⟨hinv, hops⟩
    have hk := step_kept hP hsafe hstep hinv
    refine ⟨hk.inv, fun url h d hmem => ?_⟩
    rcases mem_append.1 hmem with hmem | hmem
    · exact (hops url h d hmem).mono hk.ext
    · obtain rfl := mem_singleton.1 hmem
      cases hstep with
      | addUrl hadd => exact addUrl_stored hP hinv hsafe hadd

/-- Lookups are exact as long as the index can hold the hosts, the port number fits a `short`, and no
sibling is taken for a missing segment of the URL: what is found is the node of the URL, and a URL
that was added is found at its node. -/
theorem run_lookupExact (hP : P.Caseless) {ops : List Call}
    (hr : (calls P).Run (safeCall P) ops db) (hw : WebUrl url)
    (hlen : ∀ host, hostStrOf url = some host → host.length ≤ 255)
    (hport : (portOf url).toNat < 65536) :
    (bloomRejects url db = true ∨ ¬ UrlShadowed P url db →
      ∀ h p, findUrl P url db = some (h, p) → IsNodeOf P url h p.ref) ∧
      ∀ h d, .addUrl url (some (h, d)) ∈ ops →
        ∃ p, findUrl P url db = some (h, p) ∧ p.ref = d := by
  obtain ⟨hinv, hops⟩ := run_urlStored hP hr
  refine ⟨fun hclear h p hf => (findUrl_exact hinv hport hclear hf).1, fun h d hmem => ?_⟩
  obtain ⟨hb, scheme, host, plq, hscheme, hhost, hplq, htree, hname, href, rfl⟩ := hops url h d hmem
  obtain ⟨path, hpath⟩ := hw.pathQueryOf
  obtain rfl := Option.some.inj (hplq.symm.trans hpath)
  rw [storedKey_eq_hostKey (hlen host hhost)] at hname
  obtain ⟨p, -, hp⟩ := findUrl_of_stored hinv (fun hm => hw.not_mailto hm rfl) hport hb hscheme hhost hplq
    htree hname href
  exact ⟨p, hp⟩

theorem run_lookupExact_added : ∃ url h d db, (calls .plain).AnyRun [.addUrl url (some (h, d))] db ∧
    ∃ p, findUrl .plain url db = some (h, p) ∧ p.ref = d := by
  obtain ⟨url, hu, ht⟩ := Nsurl.exists_ok_of_any
    (x := Nsurl.create .plain (fun _ => 0) (str "http://h.co/a"))
    (p := fun url => url.components.scheme == some (str "http") && url.components.host.isSome &&
      hostStrOf url == some (str "h.co") && portOf url == 0 &&
      (addUrl .plain url Db.empty).2.isSome) (by decide +kernel)
  simp only [Bool.and_eq_true, beq_iff_eq] at ht
  obtain ⟨⟨⟨⟨hscheme, hhost⟩, hstr⟩, hport⟩, hadd⟩ := ht
  obtain ⟨⟨h, d⟩, hadd⟩ := Option.isSome_iff_exists.1 hadd
  have hstep : Call.Step .plain (.addUrl url (some (h, d))) Db.empty (addUrl .plain url Db.empty).1 :=
    .addUrl (by rw [← hadd])
  have hsafe : safeCall .plain (.addUrl url (some (h, d))) Db.empty := by
    intro host hh
    obtain rfl := Option.some.inj (hstr.symm.trans hh)
    decide +kernel
  have hlen : ∀ host, hostStrOf url = some host → host.length ≤ 255 := by
    intro host hh
    obtain rfl := Option.some.inj (hstr.symm.trans hh)
    decide
  have hfound := (run_lookupExact Platform.plain_caseless (.snoc (.start rfl) hsafe hstep)
    (create_webUrl hu (Or.inl hscheme) hhost) hlen (by rw [hport]; decide)).2 h d
    (mem_singleton.2 rfl)
  exact ⟨url, h, d, _, .snoc (.start rfl) trivial hstep, hfound⟩

/-- The node of a cookie bypasses the filter, and a lookup takes it for a URL whose path is a prefix
of the cookie's. -/
theorem findUrl_prefix_inexact : ¬ ∀ db, Reachable .plain db →
    ∀ mem s url, Nsurl.create .plain mem s = .ok url → WebUrl url →
      ∀ h p, findUrl .plain url db = some (h, p) → IsNodeOf .plain url h p.ref := by
  intro h
  obtain ⟨set, -, hs⟩ := Nsurl.exists_ok_of_any
    (x := Nsurl.create .plain (fun _ => 0) (str "http://h.co/ab"))
    (p := fun set => (Nsurl.create .plain (fun _ => 0) (str "http://h.co/a")).toOption.any fun url =>
      url.components.scheme == some (str "http") && url.components.host.isSome &&
        pathQueryOf url == some (str "/a") &&
        (setCookie .plain 0 (str "a=b; Path=/ab") set none Db.empty).any fun r =>
          (findUrl .plain url r.1).any fun node => node.2.key.segment == str "ab")
    (by decide +kernel)
  obtain ⟨url, hu, ht⟩ := Nsurl.exists_ok_of_any hs
  simp only [Bool.and_eq_true, beq_iff_eq] at ht
  obtain ⟨⟨⟨hscheme, hhost⟩, hplq⟩, hset⟩ := ht
  obtain ⟨⟨db, ok⟩, hset, hfind⟩ := exists_some_of_any hset
  obtain ⟨⟨r, p⟩, hfind, hseg⟩ := exists_some_of_any hfind
  obtain ⟨scheme, host, path, -, -, hpath, -, hp⟩ := h db (reachable_setCookie hset) _ _ url hu
    (create_webUrl hu (Or.inl hscheme) hhost) r p hfind
  obtain rfl : path = str "a" := by
    have := Option.some.inj (hplq.symm.trans hpath)
    exact (List.cons.inj this).2.symm
  have hkey := congrArg PathKey.segment (List.cons.inj hp).1
  rw [show pathForest.key p = p.key from rfl, eq_of_beq hseg] at hkey
  exact absurd hkey (show ¬ str "ab" = str "a" by decide)

end Nami.Urldb
