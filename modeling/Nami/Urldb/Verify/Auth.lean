import Nami.Urldb.Auth
import Nami.Urldb.Verify.Entries
import Nami.Urldb.Verify.Origin

/-!
# Authentication details stay with their origin

A protection space belongs to a host, a scheme and a port, and the nodes that point to it have the same
ones. `AuthInv` says in addition which call each space has its details from. The realm is looked at only
where no node on the way to the URL points to a space.
-/

namespace Nami.Urldb

open List

variable {P : Platform} {a a' : AuthDb} {db : Db} {h : HostRef} {d : PathRef} {u v url : Nsurl}
variable {scheme realm auth : Bytes} {port : UInt32} {l : List ProtSpace} {s t : ProtSpace} {i j : Nat}

/-! ## Protection spaces -/

theorem isFor_iff : s.isFor scheme port realm = true ↔ s.realm = realm ∧ s.scheme = scheme ∧ s.port = port := by
  unfold ProtSpace.isFor
  simp only [Bool.and_eq_true, beq_iff_eq, strcmp_eq_iff, and_assoc]

theorem lt_of_spaceAt (h : spaceAt i l = some s) : i < l.length := by
  induction l with
  | nil => cases h
  | cons x l ih =>
    unfold spaceAt at h
    rw [length_cons]
    split at h
    · omega
    · have := ih h
      omega

theorem spaceAt_cons (x : ProtSpace) : spaceAt i (x :: l) = if i = l.length then some x else spaceAt i l := by
  rw [spaceAt]
  simp only [eq_comm]

theorem length_overrule : (overrule auth i l).length = l.length := by
  induction l with
  | nil => rfl
  | cons x l ih =>
    unfold overrule
    split
    · rfl
    · rw [length_cons, length_cons, ih]

theorem spaceAt_overrule : spaceAt j (overrule auth i l) =
    (spaceAt j l).map fun s => if j = i then { s with auth } else s := by
  induction l with
  | nil => rfl
  | cons x l ih =>
    rw [overrule, spaceAt_cons]
    split
    · next hi =>
      rw [spaceAt_cons]
      by_cases hj : j = l.length
      · rw [if_pos hj, if_pos hj, Option.map_some, if_pos (hj.trans hi)]
      · rw [if_neg hj, if_neg hj]
        simp only [if_neg fun h : j = i => hj (h.trans hi.symm), Option.map_id']
    · next hi =>
      rw [spaceAt_cons, length_overrule]
      by_cases hj : j = l.length
      · rw [if_pos hj, if_pos hj, Option.map_some, if_neg fun h => hi (hj.symm.trans h)]
      · rw [if_neg hj, if_neg hj, ih]

theorem findSpace_eq_some (h : findSpace scheme port realm l = some i) :
    ∃ s, spaceAt i l = some s ∧ s.realm = realm ∧ s.scheme = scheme ∧ s.port = port := by
  induction l with
  | nil => cases h
  | cons x l ih =>
    rw [spaceAt_cons]
    unfold findSpace at h
    split at h
    · next hx =>
      cases h
      exact ⟨x, if_pos rfl, isFor_iff.1 hx⟩
    · obtain ⟨s, hs, hfor⟩ := ih h
      have hlt := lt_of_spaceAt hs
      exact ⟨s, by rw [if_neg (by omega), hs], hfor⟩

theorem findSpace_eq_none (h : findSpace scheme port realm l = none) (hs : spaceAt i l = some s) :
    ¬ (s.realm = realm ∧ s.scheme = scheme ∧ s.port = port) := by
  induction l with
  | nil => cases hs
  | cons x l ih =>
    rw [spaceAt_cons] at hs
    unfold findSpace at h
    split at h
    · cases h
    · next hx =>
      split at hs
      · cases hs
        exact fun hfor => hx (isFor_iff.2 hfor)
      · exact ih h hs

/-- The space `i` has the details, and no other space has changed. -/
structure SpaceSet (space : ProtSpace) (l : List ProtSpace) (i : Nat) (l' : List ProtSpace) : Prop where
  new : spaceAt i l' = some space
  old : ∀ j, j ≠ i → spaceAt j l' = spaceAt j l
  was : ∀ s, spaceAt i l = some s →
    s.realm = space.realm ∧ s.scheme = space.scheme ∧ s.port = space.port
  only : ∀ j s, spaceAt j l = some s → s.realm = space.realm → s.scheme = space.scheme →
    s.port = space.port → j = i

theorem spaceSet_overrule (hf : findSpace scheme port realm l = some i)
    (hunique : ∀ i j s t, spaceAt i l = some s → spaceAt j l = some t → s.realm = t.realm →
      s.scheme = t.scheme → s.port = t.port → i = j) :
    SpaceSet { scheme, port, realm, auth } l i (overrule auth i l) := by
  obtain ⟨t, ht, rfl, rfl, rfl⟩ := findSpace_eq_some hf
  constructor
  · rw [spaceAt_overrule, ht, Option.map_some, if_pos rfl]
  · intro j hj
    rw [spaceAt_overrule]
    simp only [if_neg hj, Option.map_id']
  · intro s hs
    obtain rfl := Option.some.inj (ht.symm.trans hs)
    exact ⟨rfl, rfl, rfl⟩
  · exact fun j s hs => hunique j i s t hs ht

theorem spaceSet_cons (hf : findSpace scheme port realm l = none) :
    SpaceSet { scheme, port, realm, auth } l l.length ({ scheme, port, realm, auth } :: l) := by
  constructor
  · rw [spaceAt_cons, if_pos rfl]
  · intro j hj
    rw [spaceAt_cons, if_neg hj]
  · intro s hs
    exact absurd (lt_of_spaceAt hs) (Nat.lt_irrefl _)
  · exact fun j s hs hrealm hscheme hport =>
      absurd ⟨hrealm, hscheme, hport⟩ (findSpace_eq_none hf hs)

/-! ## Finding the node of a URL -/

theorem matchSegments_keys {nodes : List PathData} {port : UInt16} {segs : List Bytes} {p : PathData}
    (hm : matchSegments nodes scheme port d segs = some p) :
    ∀ k ∈ p.ref, k ∈ d ∨ k.scheme = scheme ∧ k.port = port.toUInt32 := by
  induction segs generalizing d with
  | nil => cases hm
  | cons segment rest ih =>
    rw [matchSegments] at hm
    cases hf : (children nodes d).find? (matchNode segment scheme port) with
    | none =>
      rw [hf] at hm
      cases hm
    | some q =>
      rw [hf] at hm
      have hq := List.find?_some hf
      have hparent := (mem_children.1 (mem_of_find?_eq_some hf)).2
      unfold matchNode at hq
      simp only [Bool.and_eq_true, beq_iff_eq] at hq
      have hkeys : ∀ k ∈ q.ref, k ∈ d ∨ k.scheme = scheme ∧ k.port = port.toUInt32 := by
        intro k hk
        rcases mem_cons.1 hk with rfl | hk
        · exact Or.inr ⟨hq.1.2, hq.2⟩
        · exact Or.inl (hparent ▸ hk)
      simp only at hm
      split at hm
      · cases hm
        exact hkeys
      · intro k hk
        rcases ih hm k hk with hk | hk
        · exact hkeys k hk
        · exact Or.inr hk

/-- The port number of a URL, 0 when there is none. -/
def portNumber (url : Nsurl) : Int := url.components.port.elim 0 fun port => atoi (cstr port)

/-- A URL whose port number fits a `short` and whose host the index can hold. Its path starts with a slash,
as `nsurl_create` promises when there is a host. -/
structure AuthUrl (P : Platform) (url : Nsurl) : Prop where
  port : 0 ≤ portNumber url ∧ portNumber url < 65536
  host : ∀ host, hostStrOf url = some host → IndexSafe P host
  path : ∀ host, hostStrOf url = some host → url.components.scheme ≠ some (str "mailto") →
    ∃ path, pathQueryOf url = some (('/' : UInt8) :: path)

/-- The URLs have the same scheme, the same host ignoring case and the same port number. -/
def SameOrigin (u v : Nsurl) : Prop :=
  u.components.scheme = v.components.scheme ∧ (hostStrOf u).map lower = (hostStrOf v).map lower ∧
    portNumber u = portNumber v

theorem portOf_eq (url : Nsurl) : portOf url = UInt32.ofInt (portNumber url) := by
  unfold portOf portNumber
  cases url.components.port <;> rfl

theorem AuthUrl.toNat_portOf (hu : AuthUrl P u) : ((portOf u).toNat : Int) = portNumber u := by
  obtain ⟨hlow, hhigh⟩ := hu.port
  rw [portOf_eq]
  generalize portNumber u = n at hlow hhigh ⊢
  unfold UInt32.ofInt
  rw [UInt32.toNat_ofNat']
  omega

theorem AuthUrl.port_lt (hu : AuthUrl P u) : (portOf u).toNat < 65536 := by
  have hnat := hu.toNat_portOf
  have hlt := hu.port.2
  omega

/-- What is found for a URL: a node of its host, and on the way to it only its scheme and its port. -/
structure FoundFor (P : Platform) (url : Nsurl) (db : Db) (h : HostRef) (d : PathRef) (scheme : Bytes)
    (port : UInt32) : Prop where
  isScheme : url.components.scheme = some scheme
  not_mailto : scheme ≠ str "mailto"
  isPort : portOf url = port
  host : ∃ host, hostStrOf url = some host ∧ h ∈ (db.searchTrees (getSearchTree P host)).toList ∧
    lowerRef h = lowerRef (hostKey P host)
  keys : ∀ k ∈ d, k.scheme = scheme ∧ k.port = port

theorem findUrl_found (hinv : DbInvariant P db) (hu : AuthUrl P u) {p : PathData}
    (hf : findUrl P u db = some (h, p)) : FoundFor P u db h p.ref p.key.scheme p.key.port := by
  obtain ⟨-, scheme, host, plq, hscheme, hmail, hhost, hh, -, hm⟩ := findUrl_eq_some_iff.1 hf
  obtain ⟨path, rfl, hm⟩ := matchPath_eq_some hm
  have hkeys : ∀ k ∈ p.ref, k.scheme = scheme ∧ k.port = portOf u := by
    intro k hk
    have := (matchSegments_keys hm k hk).resolve_left not_mem_nil
    rwa [toUInt16_toUInt32 hu.port_lt] at this
  obtain ⟨hs, hp⟩ := hkeys p.key mem_cons_self
  rw [hs, hp]
  exact ⟨hscheme, hmail, rfl, ⟨host, hhost, (findHost_eq_some_iff hinv.index).1 hh⟩, hkeys⟩

theorem FoundFor.mono {db' : Db} (hf : FoundFor P u db h d scheme port) (he : Extends db db') :
    FoundFor P u db' h d scheme port := by
  obtain ⟨host, hhost, htree, hname⟩ := hf.host
  exact ⟨hf.isScheme, hf.not_mailto, hf.isPort, ⟨host, hhost, he.trees _ _ htree, hname⟩, hf.keys⟩

theorem FoundFor.sameOrigin {d' : PathRef} (hu : AuthUrl P u) (hv : AuthUrl P v)
    (hf : FoundFor P u db h d scheme port) (hf' : FoundFor P v db h d' scheme port) : SameOrigin u v := by
  obtain ⟨host, hhost, -, hname⟩ := hf.host
  obtain ⟨host', hhost', -, hname'⟩ := hf'.host
  refine ⟨hf.isScheme.trans hf'.isScheme.symm, ?_, ?_⟩
  · rw [hhost, hhost', Option.map_some, Option.map_some]
    exact congrArg some (lower_eq_of_hostKey (P := P) (hname.symm.trans hname'))
  · rw [← hu.toNat_portOf, ← hv.toNat_portOf, hf.isPort, hf'.isPort]

/-! ## Hosts that are filed under their whole name -/

/-- No host is filed under the first 255 bytes of a longer name. -/
def FiledWhole (P : Platform) (db : Db) : Prop :=
  ∀ h, db.Indexed h → ∀ host, lowerRef h = lowerRef (hostKey P host) → storedKey P host = hostKey P host

theorem storedKey_whole (hP : P.Caseless) {host host' : Bytes}
    (h : lowerRef (storedKey P host) = lowerRef (hostKey P host')) : storedKey P host' = hostKey P host' := by
  cases hip : hostIsIpAddress P host with
  | true =>
    have hkey : storedKey P host = hostKey P host := by
      rw [storedKey, hostKey, hip]
      rfl
    rw [hkey] at h
    have hip' : hostIsIpAddress P host' = true := by
      rw [← hostIsIpAddress_congr hP (lower_eq_of_hostKey h), hip]
    rw [storedKey, hostKey, hip']
    rfl
  | false =>
    apply storedKey_eq_hostKey
    have hkey : storedKey P host = labels (host.take 255) := by
      rw [storedKey, hip]
      rfl
    have hlow : lower host' = lower (host.take 255) := by
      rw [← intercalate_lowerRef P host', ← h, hkey]
      exact (congrArg _ (labels_lower _).symm).trans (intercalate_labels _)
    have hlen := congrArg List.length hlow
    rw [length_lower, length_lower, length_take] at hlen
    omega

theorem addUrl_filedWhole (hP : P.Caseless) (ht : HostTrees P db) (hpaths : ∀ h, PathTree (db.nodes h))
    (hw : FiledWhole P db) (url : Nsurl) :
    HostTrees P (addUrl P url db).1 ∧ FiledWhole P (addUrl P url db).1 := by
  cases hplace : placeOf P url with
  | none =>
    rw [addUrl_of_placeOf_none hplace]
    exact ⟨⟨ht.forest, ht.sorted, ht.isHost, ht.filed⟩, hw⟩
  | some place =>
    obtain ⟨h, hname, ha⟩ := addUrl_place hP ht hpaths (r := place.1) (d := place.2) hplace
    refine ⟨ha.trees, fun x hx host hh => ?_⟩
    rcases (ha.indexed x).1 hx with hx | ⟨rfl, -⟩
    · exact hw x hx host hh
    · obtain ⟨_, host₀, _, -, -, -, hstored, -⟩ := placeOf_eq_some (r := place.1) (d := place.2) hplace
      exact storedKey_whole hP (hstored.trans (hname.symm.trans hh))

theorem findUrl_addUrl (hP : P.Caseless) (hinv : DbInvariant P db) (hw : FiledWhole P db)
    (hu : AuthUrl P u) (hf : FoundFor P v db h d scheme port)
    (hsame : SameOrigin u v) : ∃ p, findUrl P u (addUrl P u db).1 = some (h, p) := by
  obtain ⟨host, hhost, htree, hname⟩ := hf.host
  obtain ⟨hscheme, hhosts, hport⟩ := hsame
  obtain ⟨host', hhost', hlow⟩ : ∃ host', hostStrOf u = some host' ∧ lower host' = lower host := by
    rw [hhost, Option.map_some, Option.map_eq_some_iff] at hhosts
    exact hhosts
  rw [hf.isScheme] at hscheme
  have hmail : u.components.scheme ≠ some (str "mailto") := by
    rw [hscheme]
    exact fun he => hf.not_mailto (Option.some.inj he)
  obtain ⟨path, hpath⟩ := hu.path host' hhost' hmail
  have ha := addUrl_spec hP hinv hu.host
  obtain ⟨h', htree', hname', href, -⟩ := ha.node _ host' _ hscheme hhost' hpath
  have hkey : lowerRef (hostKey P host') = lowerRef (hostKey P host) := ((hostKey_eq_iff hP).2 hlow).2
  have hwhole : storedKey P host' = hostKey P host' := hw h ⟨_, htree⟩ host' (hname.trans hkey.symm)
  rw [hwhole] at hname'
  have hh : h' = h := by
    refine ha.kept.inv.index.forest.ref_eq_of_normRef (ha.kept.inv.index.isHost _ h' htree')
      (ha.kept.inv.index.isHost _ h (ha.kept.ext.trees _ _ htree)) ?_
    exact hname'.trans (hkey.trans hname.symm)
  subst hh
  obtain ⟨p, -, hp, -⟩ := findUrl_of_stored ha.kept.inv hmail hu.port_lt ha.bloom hscheme hhost' hpath htree'
    hname' href
  exact ⟨p, hp⟩

/-! ## Runs -/

/-- The calls with URLs that the database keeps apart. -/
def authCall (P : Platform) : AuthCall → AuthDb → Prop
  | .setAuthDetails url _ _, _ | .getAuthDetails url _ _, _ => AuthUrl P url

/-- The details were set by the last call for the origin of `u` and the realm. -/
def LastSet (ops : List AuthCall) (u : Nsurl) (realm auth : Bytes) : Prop :=
  ∃ before after, ops = before ++ .setAuthDetails u realm auth :: after ∧
    ∀ v realm' auth', .setAuthDetails v realm' auth' ∈ after → SameOrigin v u → realm' ≠ realm

/-- A space has its details from the last call for its host, scheme, port and realm, and a node that points
to a space has its scheme and its port. -/
structure AuthInv (P : Platform) (ops : List AuthCall) (a : AuthDb) : Prop where
  inv : DbInvariant P a.db
  trees : HostTrees P a.db
  whole : FiledWhole P a.db
  points : ∀ h d i, a.protSpace (h, d) = some i → ∃ s, spaceAt i (a.protSpaces h) = some s ∧
    ∃ k ∈ d, k.scheme = s.scheme ∧ k.port = s.port
  unique : ∀ h i j s t, spaceAt i (a.protSpaces h) = some s → spaceAt j (a.protSpaces h) = some t →
    s.realm = t.realm → s.scheme = t.scheme → s.port = t.port → i = j
  last : ∀ h i s, spaceAt i (a.protSpaces h) = some s → ∃ u d, AuthUrl P u ∧
    FoundFor P u a.db h d s.scheme s.port ∧ LastSet ops u s.realm s.auth

theorem authInv_empty : AuthInv P [] AuthDb.empty where
  inv := dbInvariant_empty
  trees := addedInv_empty.trees
  whole := by
    rintro h ⟨_, hh⟩
    exact absurd hh not_mem_nil
  points _ _ _ h := by cases h
  unique _ _ _ _ _ h := by cases h
  last _ _ _ h := by cases h

theorem LastSet.append {ops : List AuthCall} (hl : LastSet ops u realm auth) {op : AuthCall}
    (hop : ∀ v realm' auth', op = .setAuthDetails v realm' auth' → SameOrigin v u → realm' ≠ realm) :
    LastSet (ops ++ [op]) u realm auth := by
  obtain ⟨before, after, rfl, hafter⟩ := hl
  refine ⟨before, after ++ [op], by simp, ?_⟩
  intro v realm' auth' hmem
  rcases mem_append.1 hmem with hmem | hmem
  · exact hafter v realm' auth' hmem
  · exact hop v realm' auth' (mem_singleton.1 hmem).symm

theorem AuthInv.addUrl (hP : P.Caseless) {ops : List AuthCall} (hi : AuthInv P ops a) (hu : AuthUrl P u)
    {op : AuthCall} (hop : ∀ h i s, spaceAt i (a.protSpaces h) = some s → ∀ u', AuthUrl P u' →
      ∀ d, FoundFor P u' a.db h d s.scheme s.port → ∀ v realm' auth',
        op = .setAuthDetails v realm' auth' → SameOrigin v u' → realm' ≠ s.realm) :
    AuthInv P (ops ++ [op]) { a with db := (addUrl P u a.db).1 } := by
  have ha := (addUrl_spec hP hi.inv hu.host).kept
  obtain ⟨htrees, hwhole⟩ := addUrl_filedWhole hP hi.trees hi.inv.paths hi.whole u
  refine ⟨ha.inv, htrees, hwhole, hi.points, hi.unique, fun h i s hs => ?_⟩
  obtain ⟨u', d, hu', hf, hl⟩ := hi.last h i s hs
  exact ⟨u', d, hu', hf.mono ha.ext, hl.append (hop h i s hs u' hu' d hf)⟩

theorem setAuthDetails_spec {p : PathData} (hf : findUrl P u (addUrl P u a.db).1 = some (h, p))
    (hunique : ∀ i j s t, spaceAt i (a.protSpaces h) = some s → spaceAt j (a.protSpaces h) = some t →
      s.realm = t.realm → s.scheme = t.scheme → s.port = t.port → i = j) :
    ∃ i l, SpaceSet { scheme := p.key.scheme, port := p.key.port, realm, auth } (a.protSpaces h) i l ∧
      setAuthDetails P u realm auth a =
        { db := (addUrl P u a.db).1
          protSpaces := Function.update a.protSpaces h l
          protSpace := Function.update a.protSpace (h, p.ref) (some i) } := by
  unfold setAuthDetails
  simp only [hf]
  cases hs : findSpace p.key.scheme p.key.port realm (a.protSpaces h) with
  | some i => exact ⟨i, _, spaceSet_overrule hs hunique, rfl⟩
  | none => exact ⟨_, _, spaceSet_cons hs, rfl⟩

theorem setAuthDetails_inv (hP : P.Caseless) {ops : List AuthCall} (hi : AuthInv P ops a) (hu : AuthUrl P u) :
    AuthInv P (ops ++ [.setAuthDetails u realm auth]) (setAuthDetails P u realm auth a) := by
  have hfound := fun h d scheme port u' hf hsame =>
    @findUrl_addUrl P a.db h d u u' scheme port hP hi.inv hi.whole hu hf hsame
  cases hf : findUrl P u (addUrl P u a.db).1 with
  | none =>
    have hset : setAuthDetails P u realm auth a = { a with db := (addUrl P u a.db).1 } := by
      unfold setAuthDetails
      simp only [hf]
    rw [hset]
    refine hi.addUrl hP hu fun h i s hs u' hu' d hfor v realm' auth' hop hsame => ?_
    cases hop
    obtain ⟨p, hp⟩ := hfound h d _ _ u' hfor hsame
    rw [hf] at hp
    cases hp
  | some node =>
    obtain ⟨h, p⟩ := node
    obtain ⟨i, l, hl, hset⟩ := @setAuthDetails_spec P a h u realm auth p hf (hi.unique h)
    have ha := (addUrl_spec hP hi.inv hu.host).kept
    obtain ⟨htrees, hwhole⟩ := addUrl_filedWhole hP hi.trees hi.inv.paths hi.whole u
    have hnode := findUrl_found ha.inv hu hf
    rw [hset]
    refine ⟨ha.inv, htrees, hwhole, ?_, ?_, ?_⟩
    · intro h' d' j hj
      simp only [Function.update_apply] at hj ⊢
      split at hj
      · next hd =>
        cases hd
        cases hj
        rw [if_pos rfl]
        exact ⟨_, hl.new, p.key, mem_cons_self, rfl, rfl⟩
      · obtain ⟨s, hs, hk⟩ := hi.points h' d' j hj
        split
        · next hh =>
          subst hh
          by_cases hji : j = i
          · subst hji
            obtain ⟨-, hscheme, hport⟩ := hl.was s hs
            rw [hscheme, hport] at hk
            exact ⟨_, hl.new, hk⟩
          · exact ⟨s, (hl.old j hji).trans hs, hk⟩
        · exact ⟨s, hs, hk⟩
    · intro h' j k s t hs ht hrealm hscheme hport
      simp only [Function.update_apply] at hs ht
      split at hs
      · next hh =>
        subst hh
        rw [if_pos rfl] at ht
        by_cases hj : j = i
        · subst hj
          by_contra hk
          rw [hl.old k (Ne.symm hk)] at ht
          obtain rfl := Option.some.inj (hl.new.symm.trans hs)
          exact hk (hl.only k t ht hrealm.symm hscheme.symm hport.symm).symm
        · rw [hl.old j hj] at hs
          by_cases hk : k = i
          · subst hk
            obtain rfl := Option.some.inj (hl.new.symm.trans ht)
            exact hl.only j s hs hrealm hscheme hport
          · rw [hl.old k hk] at ht
            exact hi.unique h' j k s t hs ht hrealm hscheme hport
      · next hh =>
        rw [if_neg hh] at ht
        exact hi.unique h' j k s t hs ht hrealm hscheme hport
    · intro h' j s hs
      simp only [Function.update_apply] at hs
      by_cases hhj : h' = h ∧ j = i
      · obtain ⟨rfl, rfl⟩ := hhj
        rw [if_pos rfl] at hs
        obtain rfl := Option.some.inj (hl.new.symm.trans hs)
        exact ⟨u, p.ref, hu, hnode, ops, [], rfl, fun _ _ _ h => absurd h not_mem_nil⟩
      · have hold : spaceAt j (a.protSpaces h') = some s := by
          split at hs
          · next hh =>
            rw [hl.old j fun hj => hhj ⟨hh, hj⟩] at hs
            rwa [hh]
          · exact hs
        obtain ⟨u', d', hu', hfor, hlast⟩ := hi.last h' j s hold
        refine ⟨u', d', hu', hfor.mono ha.ext, hlast.append ?_⟩
        rintro v realm' auth' hop hsame rfl
        cases hop
        -- a call for the origin and the realm of the space is a call for this space
        obtain ⟨p', hp'⟩ := hfound h' d' _ _ u' hfor hsame
        obtain ⟨rfl, rfl⟩ := Prod.mk.inj (Option.some.inj (hf.symm.trans hp'))
        obtain ⟨hscheme, -, hport⟩ := hsame
        rw [hnode.isScheme, hfor.isScheme] at hscheme
        have hports : p.key.port = s.port := by
          rw [← hnode.isPort, ← hfor.isPort, portOf_eq, portOf_eq, hport]
        exact hhj ⟨rfl, hl.only j s hold rfl (Option.some.inj hscheme).symm hports.symm⟩

/-- A node on the way to that of the URL points to a protection space before the call. -/
def spaceKnown (P : Platform) (url : Nsurl) (a : AuthDb) : Prop :=
  ∃ h p, findUrl P url (addUrl P url a.db).1 = some (h, p) ∧ nearestSpace a h p.ref ≠ none

/-- What a call returns. -/
def AuthFrom (P : Platform) (ops : List AuthCall) (v : Nsurl) (realm : Option Bytes) (a : AuthDb)
    (auth : Bytes) : Prop :=
  ∃ u realm', LastSet ops u realm' auth ∧ SameOrigin u v ∧
    ∀ r, realm = some r → ¬ spaceKnown P v a → realm' = r

theorem AuthInv.authFrom {ops : List AuthCall} (hi : AuthInv P ops a) {db : Db} (he : Extends a.db db)
    (hv : AuthUrl P v) (hf : FoundFor P v db h d scheme port) {realm : Option Bytes}
    (hs : spaceAt i (a.protSpaces h) = some s) (hscheme : s.scheme = scheme) (hport : s.port = port)
    (hrealm : ∀ r, realm = some r → ¬ spaceKnown P v a → s.realm = r) :
    AuthFrom P ops v realm a s.auth := by
  obtain ⟨u, d', hu, hfor, hl⟩ := hi.last h i s hs
  rw [hscheme, hport] at hfor
  exact ⟨u, s.realm, hl, (hfor.mono he).sameOrigin hu hv hf, hrealm⟩

theorem getAuthDetails_spec (hP : P.Caseless) {ops : List AuthCall} (hi : AuthInv P ops a)
    (hv : AuthUrl P v) {realm result : Option Bytes} (hget : getAuthDetails P v realm a = (a', result)) :
    AuthInv P (ops ++ [.getAuthDetails v realm result]) a' ∧
      ∀ auth, result = some auth → AuthFrom P ops v realm a auth := by
  have hadd : AuthInv P (ops ++ [.getAuthDetails v realm result]) { a with db := (addUrl P v a.db).1 } :=
    hi.addUrl hP hv fun _ _ _ _ _ _ _ _ _ _ _ hop => by cases hop
  have ha := (addUrl_spec hP hi.inv hv.host).kept
  unfold getAuthDetails at hget
  cases hf : findUrl P v (addUrl P v a.db).1 with
  | none =>
    simp only [hf] at hget
    cases hget
    exact ⟨hadd, fun _ h => by cases h⟩
  | some node =>
    obtain ⟨h, p⟩ := node
    have hnode := findUrl_found ha.inv hv hf
    simp only [hf] at hget
    have hsame : nearestSpace { a with db := (addUrl P v a.db).1 } h p.ref = nearestSpace a h p.ref := rfl
    rw [hsame] at hget
    cases hn : nearestSpace a h p.ref with
    | some i =>
      simp only [hn] at hget
      cases hget
      refine ⟨hadd, fun auth hauth => ?_⟩
      obtain ⟨d, hd, hpoint⟩ := exists_of_findSome?_eq_some hn
      obtain ⟨s, hs, k, hk, hscheme, hport⟩ := hi.points h d i hpoint
      obtain ⟨hks, hkp⟩ := hnode.keys k (((mem_tails _ _).1 hd).subset hk)
      rw [hs] at hauth
      cases hauth
      refine hi.authFrom ha.ext hv hnode hs (hscheme.symm.trans hks) (hport.symm.trans hkp) ?_
      intro r _ hunknown
      refine absurd ⟨h, p, hf, ?_⟩ hunknown
      rw [hn]
      exact Option.some_ne_none i
    | none =>
      cases realm with
      | none =>
        simp only [hn] at hget
        cases hget
        exact ⟨hadd, fun _ h => by cases h⟩
      | some realm =>
        cases hs : findSpace p.key.scheme p.key.port realm (a.protSpaces h) with
        | none =>
          simp only [hn, hs] at hget
          cases hget
          exact ⟨hadd, fun _ h => by cases h⟩
        | some i =>
          simp only [hn, hs] at hget
          cases hget
          obtain ⟨s, hat, hrealm, hscheme, hport⟩ := findSpace_eq_some hs
          refine ⟨⟨hadd.inv, hadd.trees, hadd.whole, ?_, hadd.unique, hadd.last⟩, fun auth hauth => ?_⟩
          · intro h' d' j hj
            simp only [Function.update_apply] at hj
            split at hj
            · next hd =>
              cases hd
              cases hj
              exact ⟨s, hat, p.key, mem_cons_self, hscheme.symm, hport.symm⟩
            · exact hi.points h' d' j hj
          · rw [hat] at hauth
            cases hauth
            refine hi.authFrom ha.ext hv hnode hat hscheme hport ?_
            intro r hr _
            cases hr
            exact hrealm

theorem run_authInv (hP : P.Caseless) {ops : List AuthCall}
    (hr : (authCalls P).Run (authCall P) ops a) : AuthInv P ops a := by
  apply hr.traceInvariant
  · rintro a rfl
    exact authInv_empty
  · intro ops op a a' hcall hstep hi
    cases hstep with
    | setAuthDetails => exact setAuthDetails_inv hP hi hcall
    | getAuthDetails hget => exact (getAuthDetails_spec hP hi hcall hget).1

/-- Details that are returned for a URL were set by the last call for its scheme, host and port and some
realm. It is the given realm when no space was known for the URL before. -/
theorem run_authIsolated (hP : P.Caseless) {ops : List AuthCall}
    (hr : (authCalls P).Run (authCall P) ops a) (hv : AuthUrl P v) {realm : Option Bytes}
    (hget : getAuthDetails P v realm a = (a', some auth)) : AuthFrom P ops v realm a auth :=
  (getAuthDetails_spec hP (run_authInv hP hr) hv hget).2 auth rfl

theorem run_authIsolated_realm : ∃ u a a',
    (authCalls .plain).AnyRun [.setAuthDetails u (str "tree") (str "me:x")] a ∧
      getAuthDetails .plain u (some (str "tree")) a = (a', some (str "me:x")) ∧
        AuthFrom .plain [.setAuthDetails u (str "tree") (str "me:x")] u (some (str "tree")) a
          (str "me:x") := by
  obtain ⟨u, -, ht⟩ := Nsurl.exists_ok_of_any
    (x := Nsurl.create .plain (fun _ => 0) (str "http://h.co/a"))
    (p := fun u => portNumber u == 0 && hostStrOf u == some (str "h.co") &&
      pathQueryOf u == some (str "/a") && (getAuthDetails .plain u (some (str "tree"))
        (setAuthDetails .plain u (str "tree") (str "me:x") AuthDb.empty)).2 == some (str "me:x"))
    (by decide +kernel)
  simp only [Bool.and_eq_true, beq_iff_eq] at ht
  obtain ⟨⟨⟨hport, hhost⟩, hpath⟩, hget⟩ := ht
  have hu : AuthUrl .plain u := by
    refine ⟨by rw [hport]; decide, fun host hh => ?_, fun _ _ _ => ⟨_, hpath⟩⟩
    obtain rfl := Option.some.inj (hhost.symm.trans hh)
    decide +kernel
  obtain ⟨a', hget⟩ : ∃ a', getAuthDetails .plain u (some (str "tree"))
      (setAuthDetails .plain u (str "tree") (str "me:x") AuthDb.empty) = (a', some (str "me:x")) :=
    ⟨_, Prod.ext rfl hget⟩
  have hcall : authCall .plain (.setAuthDetails u (str "tree") (str "me:x")) AuthDb.empty := hu
  exact ⟨u, _, a', .snoc (.start rfl) trivial .setAuthDetails, hget,
    run_authIsolated Platform.plain_caseless (.snoc (.start rfl) hcall .setAuthDetails) hu hget⟩

/-- Once the space of a URL is known the realm is not looked at. -/
theorem getAuthDetails_otherRealm : ¬ ∀ ops a, (authCalls .plain).AnyRun ops a →
    ∀ v realm a' auth, getAuthDetails .plain v realm a = (a', some auth) →
      ∃ u realm', .setAuthDetails u realm' auth ∈ ops ∧ SameOrigin u v ∧
        ∀ r, realm = some r → realm' = r := by
  intro h
  obtain ⟨u, -, ht⟩ := Nsurl.exists_ok_of_any
    (x := Nsurl.create .plain (fun _ => 0) (str "http://h.co/a"))
    (p := fun u => (getAuthDetails .plain u (some (str "field"))
      (setAuthDetails .plain u (str "tree") (str "me:x") AuthDb.empty)).2 == some (str "me:x"))
    (by decide +kernel)
  obtain ⟨a', hget⟩ : ∃ a', getAuthDetails .plain u (some (str "field"))
      (setAuthDetails .plain u (str "tree") (str "me:x") AuthDb.empty) = (a', some (str "me:x")) :=
    ⟨_, Prod.ext rfl (eq_of_beq ht)⟩
  obtain ⟨v, realm, hmem, -, hrealm⟩ :=
    h _ _ (.snoc (.start rfl) trivial .setAuthDetails) u _ _ _ hget
  cases mem_singleton.1 hmem
  exact absurd (hrealm _ rfl) (by decide)

end Nami.Urldb
