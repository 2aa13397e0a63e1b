import Nami.Urldb.Verify.CookieSelect
import Nami.Urldb.Verify.Lookup

/-!
# Where cookies come from

Every cookie in the database was set by a call of the run, and its place tells for which hosts
(`OriginInv`): a cookie at a path node for the host that set it, a domain cookie for the hosts of its
domain. The place for a domain that is an address is the host of that address; such cookies are kept out
by `isolatingCall`.
-/

namespace Nami.Urldb

open List
open Ascii

variable {P : Platform} {db db' : Db} {h : HostRef} {d : PathRef} {now : Int} {url v : Nsurl}
variable {c : Cookie} {ops : List Call} {host : Bytes}

/-! ## The calls of a run -/

/-- A call of the run set the cookie for the URL. -/
def SetBy (P : Platform) (ops : List Call) (c : Cookie) (u : Nsurl) : Prop :=
  ∃ now header referer ok, Call.setCookie now header u referer ok ∈ ops ∧
    c ∈ storedCookies P now header u referer

/-- Calls that keep the cookies of hosts apart. The index can hold the hosts, no host is longer than a name
may be, and no cookie is for a domain whose dot is followed by an address. Cookie files, which may hold
anything, are left out. -/
def isolatingCall (P : Platform) : Call → Db → Prop
  | .setCookie now header url referer ok, db =>
    safeCall P (.setCookie now header url referer ok) db ∧
      ∀ host, url.components.host = some host → 0 ∉ host ∧ host.length ≤ 255 ∧
        ∀ c ∈ storedCookies P now header url referer, c.domain.head? = some ('.' : UInt8) →
          hostIsIpAddress P (c.domain.drop 1) = false
  | .loadCookie _ _ _ _, _ => False
  | .addUrl url node, db => safeCall P (.addUrl url node) db
  | .getCookie now url b text, db => safeCall P (.getCookie now url b text) db
  | .deleteCookie _ _ _, _ => True

theorem isolatingCall.safe {op : Call} (h : isolatingCall P op db) : safeCall P op db := by
  cases op with
  | setCookie => exact h.1
  | loadCookie => exact h.elim
  | addUrl => exact h
  | getCookie => exact h
  | deleteCookie => exact h

/-! ## The place of a cookie -/

theorem intercalate_lowerRef (P : Platform) (host : Bytes) :
    [('.' : UInt8)].intercalate (lowerRef (hostKey P host)) = lower host := by
  unfold hostKey
  split
  · exact intercalate_singleton
  · have hl : lowerRef (labels host) = labels (lower host) := (labels_lower host).symm
    rw [hl, intercalate_labels]

theorem lower_eq_of_hostKey {a b : Bytes} (h : lowerRef (hostKey P a) = lowerRef (hostKey P b)) :
    lower a = lower b := by
  rw [← intercalate_lowerRef P a, h, intercalate_lowerRef]

/-- The cookie of the host `host` is where its domain belongs. -/
inductive PlacedFor (P : Platform) (host : Bytes) (c : Cookie) (h : HostRef) : PathRef → Prop where
  | hostOnly {d : PathRef} : d ≠ [] → lowerRef h = lowerRef (hostKey P host) →
    PlacedFor P host c h d
  | domain : c.domain.head? = some ('.' : UInt8) →
    hostIsIpAddress P (c.domain.drop 1) = false → hostIsIpAddress P host = false →
    InDomain c.domain host → lowerRef h = lowerRef (labels (c.domain.drop 1)) →
    PlacedFor P host c h []

theorem inDomain_of_domainMatches (hP : P.RefusesDot) (hnul : 0 ∉ host)
    (hm : domainMatches P host c.domain = true) (hdot : c.domain.head? = some ('.' : UInt8)) :
    hostIsIpAddress P host = false ∧ InDomain c.domain host ∧ (c.domain.drop 1).length ≤ host.length := by
  obtain ⟨s, hlow, hcases⟩ := domainMatches_dotted hm hdot
  rw [cstr_eq_self hnul] at hcases
  have hlen : s.length = (c.domain.drop 1).length := by
    have := congrArg List.length hlow
    rwa [length_lower, length_lower] at this
  have hdots : lower (('.' : UInt8) :: s) = lower c.domain := by
    rw [lower_dotted hdot, ← hlow, lower_cons, (toLower_eq_iff (by decide +kernel)).2 rfl]
  rcases hcases with rfl | ⟨hip, rfl | hsuf⟩
  · refine ⟨hostIsIpAddress_dot hP rfl, Or.inr ?_, ?_⟩
    · rw [hdots]
    · rw [length_cons]
      omega
  · exact ⟨hip, Or.inl hlow, hlen.ge⟩
  · refine ⟨hip, Or.inr ?_, ?_⟩
    · rw [← hdots]
      exact List.IsSuffix.map toLower hsuf
    · have := hsuf.length_le
      rw [length_cons] at this
      omega

theorem stored_placedFor (hP : P.RefusesDot) (hnul : 0 ∉ host) (hhost : url.components.host = some host)
    (hip : c.domain.head? = some ('.' : UInt8) → hostIsIpAddress P (c.domain.drop 1) = false)
    {header : Bytes} {referer : Option Nsurl} (hc : c ∈ storedCookies P now header url referer)
    (hfiled : FiledAt P url c h d) : PlacedFor P host c h d := by
  obtain ⟨host', path, hhost', -, hvalid, hdomain⟩ := mem_storedCookies hc
  obtain rfl := Option.some.inj (hhost.symm.trans hhost')
  obtain ⟨hname, rfl⟩ := hfiled
  unfold cookieRef
  by_cases hdot : c.domain.head? = some ('.' : UInt8)
  · obtain ⟨hhip, hin, -⟩ := inDomain_of_domainMatches hP hnul (validCookie_domain hvalid) hdot
    rw [if_pos hdot]
    rw [domainHost, if_pos hdot, hostKey, hip hdot] at hname
    exact .domain hdot (hip hdot) hhip hin hname
  · rw [if_neg hdot]
    rw [domainHost, if_neg hdot, hdomain.resolve_left hdot, cstr_eq_self hnul] at hname
    exact .hostOnly (chain_ne_nil (segments_ne_nil _)) hname

/-! ## The invariant -/

/-- Every cookie was set by a call, and is where it belongs for the host of that call. -/
structure OriginInv (P : Platform) (ops : List Call) (db : Db) : Prop where
  inv : DbInvariant P db
  origin : ∀ h d, ∀ c ∈ db.cookiesAt h d, ∃ u host, SetBy P ops c u ∧ u.components.host = some host ∧
    PlacedFor P host c h d

theorem SetBy.snoc {u : Nsurl} (h : SetBy P ops c u) (op : Call) : SetBy P (ops ++ [op]) c u := by
  obtain ⟨now, header, referer, ok, hmem, hc⟩ := h
  exact ⟨now, header, referer, ok, mem_append_left _ hmem, hc⟩

theorem OriginInv.of_subset (h : OriginInv P ops db) (op : Call) (hinv : DbInvariant P db')
    (hsub : ∀ h d, ∀ c ∈ db'.cookiesAt h d, c ∈ db.cookiesAt h d) :
    OriginInv P (ops ++ [op]) db' := by
  refine ⟨hinv, fun r d c hc => ?_⟩
  obtain ⟨u, host, hset, hhost, hplaced⟩ := h.origin r d c (hsub r d c hc)
  exact ⟨u, host, hset.snoc op, hhost, hplaced⟩

theorem OriginInv.setCookie (hP : P.Caseless) (hdot : P.RefusesDot) (hinv : OriginInv P ops db)
    {header : Bytes} {referer : Option Nsurl} {ok : Bool}
    (hsafe : isolatingCall P (.setCookie now header url referer ok) db)
    (hset : setCookie P now header url referer db = some (db', ok)) :
    OriginInv P (ops ++ [.setCookie now header url referer ok]) db' := by
  have hkept := step_kept hP hsafe.1 (.setCookie hset) hinv.inv
  rw [setCookie_eq_insertCookies hset] at hkept ⊢
  refine ⟨hkept.inv, fun r d c hc => ?_⟩
  have hindex : ∀ c ∈ storedCookies P now header url referer, IndexSafe P (domainHost c.domain) := by
    intro c hc
    obtain ⟨host, path, hhost, -, hv, hd⟩ := mem_storedCookies hc
    exact indexSafe_domainHost hP (hsafe.1 host hhost) (validCookie_domain hv) hd
  have hlen : ∀ c ∈ storedCookies P now header url referer, (domainHost c.domain).length ≤ 255 := by
    intro c hc
    obtain ⟨host, path, hhost, -, hv, hd⟩ := mem_storedCookies hc
    obtain ⟨hnul, hlen, -⟩ := hsafe.2 host hhost
    unfold domainHost
    split
    · next hdotted =>
      exact (inDomain_of_domainMatches hdot hnul (validCookie_domain hv) hdotted).2.2.trans hlen
    · next hdotted => rwa [hd.resolve_left hdotted, cstr_eq_self hnul]
  rcases mem_insertCookies hP hindex hlen hinv.inv hc with hold | ⟨hstored, hfiled⟩
  · obtain ⟨u, host, hset, hhost, hplaced⟩ := hinv.origin r d c hold
    exact ⟨u, host, hset.snoc _, hhost, hplaced⟩
  · obtain ⟨host, path, hhost, -, -, -⟩ := mem_storedCookies hstored
    obtain ⟨hnul, -, hip⟩ := hsafe.2 host hhost
    have hmem : Call.setCookie now header url referer ok ∈ ops ++ [.setCookie now header url referer ok] :=
      mem_append_right _ (mem_singleton_self _)
    exact ⟨url, host, ⟨now, header, referer, ok, hmem, hstored⟩, hhost,
      stored_placedFor hdot hnul hhost (hip c hstored) hstored hfiled⟩

theorem OriginInv.step (hP : P.Caseless) (hdot : P.RefusesDot) {op : Call}
    (hsafe : isolatingCall P op db) (hstep : Call.Step P op db db') (hinv : OriginInv P ops db) :
    OriginInv P (ops ++ [op]) db' := by
  have hkept := step_kept hP hsafe.safe hstep hinv.inv
  cases hstep with
  | addUrl hadd =>
    have hcookies := (addUrl_spec hP hinv.inv hsafe.safe).cookiesAt
    rw [hadd] at hcookies
    refine hinv.of_subset _ hkept.inv fun r d c hc => ?_
    rwa [hcookies] at hc
  | getCookie hget =>
    have hcookies := (addUrl_spec hP hinv.inv hsafe.safe).cookiesAt
    rw [getCookie] at hget
    rw [(Prod.mk.inj hget).1] at hcookies
    refine hinv.of_subset _ hkept.inv fun r d c hc => ?_
    rwa [hcookies] at hc
  | deleteCookie =>
    exact hinv.of_subset _ hkept.inv fun r d c hc =>
      ((deleteCookie_spec hinv.inv _ _ _).2 r d).subset hc
  | setCookie hset => exact hinv.setCookie hP hdot hsafe hset
  | loadCookie => exact hsafe.elim

theorem run_originInv (hP : P.Caseless) (hdot : P.RefusesDot)
    (hr : (calls P).Run (isolatingCall P) ops db) : OriginInv P ops db := by
  apply hr.traceInvariant
  · rintro db rfl
    refine ⟨dbInvariant_empty, fun r d c hc => ?_⟩
    cases d <;> cases hc
  · exact fun _ _ _ _ hsafe hstep hinv => hinv.step hP hdot hsafe hstep

/-! ## What is selected -/

theorem StoredAt.cookiesAt (hinv : DbInvariant P db) {p : PathData} {s : Stored} {place : Place}
    (hs : StoredAt db h p s place) :
    s.cookie ∈ db.cookiesAt s.host s.path ∧ (s.host = h ∧ s.path ≠ [] ∨ s.host <:+ h ∧ s.path = []) := by
  have hnode : ∀ q ∈ db.nodes h, StoredIn h q s → s.cookie ∈ db.cookiesAt s.host s.path ∧
        (s.host = h ∧ s.path ≠ [] ∨ s.host <:+ h ∧ s.path = []) := by
    rintro q hq ⟨hhost, hpath, hc⟩
    rw [hhost, hpath]
    refine ⟨?_, Or.inl ⟨rfl, cons_ne_nil _ _⟩⟩
    exact mem_nodeCookies.2 ⟨q, hq, rfl, hc⟩
  cases place with
  | exact =>
    obtain ⟨-, q, hq, -, hin⟩ := hs
    exact hnode q hq hin
  | directory =>
    obtain ⟨q, hq, -, hin⟩ := hs
    exact hnode q hq hin
  | ancestor =>
    obtain ⟨q, hq, -, hin⟩ := hs
    exact hnode q hq hin
  | domain =>
    obtain ⟨e, he, hsuf, hhost, hpath, hc⟩ := hs
    rw [hhost, hpath]
    refine ⟨?_, Or.inr ⟨hsuf, rfl⟩⟩
    have hfound := (host_eq_some_iff hinv.index.forest).2 ⟨he, rfl⟩
    rw [Db.cookiesAt, Db.cookies, hfound]
    exact hc

/-- The two hosts are one, or the cookie is for a domain that both are in and neither is an address. -/
def SharesCookie (P : Platform) (c : Cookie) (hostU hostV : Bytes) : Prop :=
  lower hostU = lower hostV ∨
    c.domain.head? = some ('.' : UInt8) ∧ hostIsIpAddress P hostU = false ∧
      hostIsIpAddress P hostV = false ∧ InDomain c.domain hostU ∧ InDomain c.domain hostV

theorem PlacedFor.shares (hP : P.Caseless) {hostU hostV : Bytes} {r : HostRef}
    (hplaced : PlacedFor P hostU c r d) (hname : lowerRef h = lowerRef (hostKey P hostV))
    (hway : r = h ∧ d ≠ [] ∨ r <:+ h ∧ d = []) : SharesCookie P c hostU hostV := by
  cases hplaced with
  | hostOnly hd hr =>
    rcases hway with ⟨rfl, -⟩ | ⟨-, hnil⟩
    · exact Or.inl (lower_eq_of_hostKey (hr.symm.trans hname))
    · exact absurd hnil hd
  | domain hdotted hdip hip hin hr =>
    rcases hway with ⟨-, hne⟩ | ⟨hsuf, -⟩
    · exact absurd rfl hne
    · have hlabels : lowerRef (labels (c.domain.drop 1)) <:+ lowerRef (hostKey P hostV) := by
        rw [← hr, ← hname]
        exact List.IsSuffix.map lower hsuf
      have hvip : hostIsIpAddress P hostV = false := by
        cases hvip : hostIsIpAddress P hostV with
        | false => rfl
        | true =>
          rw [hostKey, hvip, if_pos rfl] at hlabels
          rcases suffix_cons_iff.1 hlabels with heq | hnil
          · have hkey : lowerRef (hostKey P (c.domain.drop 1)) = lowerRef (hostKey P hostV) := by
              rw [hostKey, hdip, hostKey, hvip]
              exact heq
            rw [hostIsIpAddress_congr hP (lower_eq_of_hostKey hkey), hvip] at hdip
            cases hdip
          · exact absurd (map_eq_nil_iff.1 (suffix_nil.1 hnil)) (labels_ne_nil _)
      rw [hostKey, hvip] at hlabels
      exact Or.inr ⟨hdotted, hip, hvip, hin, (inDomain_iff_suffix hdotted).2 hlabels⟩

/-- After a run that keeps the cookies of hosts apart, a cookie that is selected for a URL was set for the
same host, or for a domain that both hosts are in. -/
theorem run_originIsolated (hP : P.Caseless) (hdot : P.RefusesDot)
    (hr : (calls P).Run (isolatingCall P) ops db)
    (hv : ∀ host, hostStrOf v = some host → IndexSafe P host) {b : Bool} {s : Stored}
    (hs : s ∈ selectedCookies P now v b db) : ∃ u hostU hostV, SetBy P ops s.cookie u ∧
      u.components.host = some hostU ∧ hostStrOf v = some hostV ∧
      SharesCookie P s.cookie hostU hostV := by
  have horigin := run_originInv hP hdot hr
  have hadd := addUrl_spec hP horigin.inv hv
  obtain ⟨place, h, p, path, hfind, -, hat, -⟩ := mem_matchedCookies.1 hs
  obtain ⟨hmem, hway⟩ := hat.cookiesAt hadd.kept.inv
  obtain ⟨-, scheme, hostV, plq, -, -, hhostV, hfound, -⟩ := findUrl_eq_some_iff.1 hfind
  have hname := ((findHost_eq_some_iff hadd.kept.inv.index).1 hfound).2
  rw [hadd.cookiesAt] at hmem
  obtain ⟨u, hostU, hset, hhostU, hplaced⟩ := horigin.origin _ _ _ hmem
  exact ⟨u, hostU, hostV, hset, hhostU, hhostV, hplaced.shares hP hname hway⟩

theorem run_originIsolated_subdomain : ∃ ops db v s,
    (calls .plain).Run (isolatingCall .plain) ops db ∧ s ∈ selectedCookies .plain 0 v true db ∧
      ∃ u hostU hostV, SetBy .plain ops s.cookie u ∧ u.components.host = some hostU ∧
        hostStrOf v = some hostV ∧ SharesCookie .plain s.cookie hostU hostV := by
  obtain ⟨set, -, hs⟩ := Nsurl.exists_ok_of_any
    (x := Nsurl.create .plain (fun _ => 0) (str "http://x.h.co/"))
    (p := fun set => (Nsurl.create .plain (fun _ => 0) (str "http://y.h.co/")).toOption.any fun v =>
      set.components.host == some (str "x.h.co") && hostStrOf v == some (str "y.h.co") &&
        ((storedCookies .plain 0 (str "a=b; Domain=.h.co") set none).all fun c =>
          !hostIsIpAddress .plain (c.domain.drop 1)) &&
        (setCookie .plain 0 (str "a=b; Domain=.h.co") set none Db.empty).any fun r =>
          (selectedCookies .plain 0 v true r.1).head?.isSome)
    (by decide +kernel)
  obtain ⟨v, -, ht⟩ := exists_some_of_any hs
  simp only [Bool.and_eq_true, beq_iff_eq] at ht
  obtain ⟨⟨⟨hset, hv⟩, hnames⟩, hstored⟩ := ht
  obtain ⟨⟨db, ok⟩, hstep, hsel⟩ := exists_some_of_any hstored
  obtain ⟨s, hsel⟩ := Option.isSome_iff_exists.1 hsel
  have hguard : isolatingCall .plain (.setCookie 0 (str "a=b; Domain=.h.co") set none ok) Db.empty := by
    constructor
    · intro host hhost
      obtain rfl := Option.some.inj (hset.symm.trans hhost)
      decide +kernel
    · intro host hhost
      obtain rfl := Option.some.inj (hset.symm.trans hhost)
      refine ⟨by decide, by decide, fun c hc _ => ?_⟩
      have hname := all_eq_true.1 hnames c hc
      rwa [Bool.not_eq_true'] at hname
  have hr : (calls .plain).Run (isolatingCall .plain)
      [.setCookie 0 (str "a=b; Domain=.h.co") set none ok] db :=
    .snoc (.start rfl) hguard (.setCookie hstep)
  have hsafe : ∀ host, hostStrOf v = some host → IndexSafe .plain host := by
    intro host hhost
    obtain rfl := Option.some.inj (hv.symm.trans hhost)
    decide +kernel
  exact ⟨_, db, v, s, hr, mem_of_head? hsel,
    run_originIsolated Platform.plain_caseless Platform.plain_refusesDot hr hsafe
      (mem_of_head? hsel)⟩

/-- The name `a.1.2.3.4` sets a cookie for the domain `.1.2.3.4`, which is then that of an address. -/
theorem getCookie_crosses_address : ¬ ∀ ops db, (calls .plain).AnyRun ops db →
    (∀ op ∈ ops, ∃ now header url referer ok, op = .setCookie now header url referer ok) →
    ∀ now v b, ∀ s ∈ selectedCookies .plain now v b db, ∃ u hostU hostV,
      SetBy .plain ops s.cookie u ∧ u.components.host = some hostU ∧ hostStrOf v = some hostV ∧
        SharesCookie .plain s.cookie hostU hostV := by
  intro h
  obtain ⟨set, -, hs⟩ := Nsurl.exists_ok_of_any
    (x := Nsurl.create .plain (fun _ => 0) (str "http://a.1.2.3.4/"))
    (p := fun set => (Nsurl.create .plain (fun _ => 0) (str "http://1.2.3.4/")).toOption.any fun v =>
      set.components.host == some (str "a.1.2.3.4") && hostStrOf v == some (str "1.2.3.4") &&
        (setCookie .plain 0 (str "a=b; Domain=.1.2.3.4") set none Db.empty).any fun r =>
          (selectedCookies .plain 0 v true r.1).head?.isSome)
    (by decide +kernel)
  obtain ⟨v, -, ht⟩ := exists_some_of_any hs
  simp only [Bool.and_eq_true, beq_iff_eq] at ht
  obtain ⟨⟨hset, hv⟩, hstored⟩ := ht
  obtain ⟨⟨db, ok⟩, hstep, hsel⟩ := exists_some_of_any hstored
  obtain ⟨s, hsel⟩ := Option.isSome_iff_exists.1 hsel
  have hr : (calls .plain).AnyRun [.setCookie 0 (str "a=b; Domain=.1.2.3.4") set none ok] db :=
    .snoc (.start rfl) trivial (.setCookie hstep)
  obtain ⟨u, hostU, hostV, ⟨now, header, referer, ok', hmem, -⟩, hhostU, hhostV, hshares⟩ :=
    h _ db hr (fun op hop => ⟨_, _, _, _, _, mem_singleton.1 hop⟩) 0 v true s
      (mem_of_head? hsel)
  obtain ⟨-, -, rfl, -, -⟩ := Call.setCookie.inj (mem_singleton.1 hmem)
  obtain rfl := Option.some.inj (hset.symm.trans hhostU)
  obtain rfl := Option.some.inj (hv.symm.trans hhostV)
  rcases hshares with heq | ⟨-, -, hip, -⟩
  · exact absurd heq (by decide +kernel)
  · exact absurd hip (by decide +kernel)

end Nami.Urldb
