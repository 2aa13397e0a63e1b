import Nami.Urldb.Cookie
import Nami.Urldb.Verify.HostIndex
import Nami.Urldb.Verify.PathTree

/-!
# The database over calls

`DbInvariant` is what every call keeps: the host index, the path tree of each host, and one cookie per
domain, path and name at each place. `Extends` is what no call undoes: indexed hosts, path nodes and
entries of the filter stay. The cookies of a database are a list for each place (`Db.cookiesAt`);
`insertCookie_spec` and `deleteCookie_spec` say how the calls change it, and all else leaves it alone.
-/

namespace Nami.Urldb

open List

variable {P : Platform} {db db' : Db} {h : HostRef} {d : PathRef}

/-! ## Places -/

/-- The domain cookies of a host. -/
def Db.cookies (db : Db) (h : HostRef) : List Cookie := (db.host h).elim [] (·.cookies)

/-- The cookies of a place: of a path node, or the domain cookies. -/
def Db.cookiesAt (db : Db) (h : HostRef) : PathRef → List Cookie
  | [] => db.cookies h
  | k :: d => nodeCookies (db.nodes h) (k :: d)

/-- A change to hosts that keeps their names. -/
structure KeepsHost (f : HostPart → HostPart) : Prop where
  part : ∀ e, (f e).part = e.part
  parent : ∀ e, (f e).parent = e.parent

theorem KeepsHost.ref {f : HostPart → HostPart} (hf : KeepsHost f) (e : HostPart) : (f e).ref = e.ref := by
  simp only [HostPart.ref, KeyForest.ref, hostForest, hf.part, hf.parent]

theorem KeepsHost.at {f : HostPart → HostPart} (hf : KeepsHost f) (h : HostRef) :
    KeepsHost fun e => if e.ref = h then f e else e := by
  refine ⟨fun e => ?_, fun e => ?_⟩ <;> split
  · exact hf.part e
  · rfl
  · exact hf.parent e
  · rfl

theorem mem_of_host {e : HostPart} (he : db.host h = some e) : e ∈ db.hosts ∧ e.ref = h := by
  rw [Db.host] at he
  have href := List.find?_some he
  exact ⟨mem_of_find?_eq_some he, of_decide_eq_true href⟩

theorem host_eq_some_iff (hwf : hostForest.WellFormed db.hosts) {e : HostPart} :
    db.host h = some e ↔ e ∈ db.hosts ∧ e.ref = h := by
  refine ⟨mem_of_host, ?_⟩
  rintro ⟨he, rfl⟩
  cases hf : db.host e.ref with
  | none =>
    rw [Db.host] at hf
    exact absurd (decide_eq_true rfl) (List.find?_eq_none.1 hf e he)
  | some e' =>
    obtain ⟨he', href⟩ := mem_of_host hf
    rw [hwf.eq_of_normRef he' he (congrArg _ href)]

theorem host_mapHosts {f : HostPart → HostPart} (hf : KeepsHost f) (h : HostRef) :
    Db.host { db with hosts := db.hosts.map f } h = (db.host h).map f := by
  have hcomp : (fun e : HostPart => decide (e.ref = h)) ∘ f = fun e => decide (e.ref = h) := by
    funext e
    simp only [Function.comp_apply, hf.ref]
  rw [Db.host, Db.host, List.find?_map, hcomp]

theorem host_modifyHost {f : HostPart → HostPart} (hf : KeepsHost f) (h h' : HostRef) :
    (db.modifyHost h f).host h' = (db.host h').map fun e => if h' = h then f e else e := by
  rw [Db.modifyHost, host_mapHosts (hf.at h)]
  cases he : db.host h' with
  | none => rfl
  | some e =>
    simp only [Option.map_some, (mem_of_host he).2]

/-! ## The invariant -/

structure DbInvariant (P : Platform) (db : Db) : Prop where
  index : HostIndex P db
  rootAddress : ∀ e ∈ db.hosts, e.parent = [] → hostIsIpAddress P e.part = true →
    e.ref ∈ (db.searchTrees 0).toList
  paths : ∀ h, PathTree (db.nodes h)
  unique : ∀ h d, (db.cookiesAt h d).Pairwise fun a b => sameCookie a b = false

/-- The filter knows the hash. -/
def bloomKnows (db : Db) (hash : UInt32) : Prop :=
  ∃ bloom, db.urlBloom = some bloom ∧ bloom.searchHash hash = true

structure Extends (db db' : Db) : Prop where
  trees : ∀ i d, d ∈ (db.searchTrees i).toList → d ∈ (db'.searchTrees i).toList
  nodes : ∀ h d, pathForest.IsRef (db.nodes h) d → pathForest.IsRef (db'.nodes h) d
  bloom : ∀ hash, bloomKnows db hash → bloomKnows db' hash

theorem Extends.refl (db : Db) : Extends db db := ⟨fun _ _ h => h, fun _ _ h => h, fun _ h => h⟩

theorem Extends.trans {db₁ db₂ db₃ : Db} (h₁ : Extends db₁ db₂) (h₂ : Extends db₂ db₃) :
    Extends db₁ db₃ :=
  ⟨fun i d h => h₂.trees i d (h₁.trees i d h), fun h d hd => h₂.nodes h d (h₁.nodes h d hd),
    fun hash h => h₂.bloom hash (h₁.bloom hash h)⟩

theorem dbInvariant_empty : DbInvariant P Db.empty where
  index := hostIndex_empty
  rootAddress _ h := absurd h not_mem_nil
  paths _ := pathTree_nil
  unique _ d := by cases d <;> exact List.Pairwise.nil

theorem DbInvariant.mapHosts (hinv : DbInvariant P db) {f : HostPart → HostPart} (hf : KeepsHost f)
    (hpaths : ∀ e, PathTree e.nodes → PathTree (f e).nodes)
    (hunique : ∀ h d, (Db.cookiesAt { db with hosts := db.hosts.map f } h d).Pairwise
      fun a b => sameCookie a b = false) :
    DbInvariant P { db with hosts := db.hosts.map f } where
  index :=
    { forest := hinv.index.forest.map hf.ref
      valid := hinv.index.valid
      sorted := hinv.index.sorted
      isHost := fun i d hd => (KeyForest.isRef_map hf.ref).2 (hinv.index.isHost i d hd)
      address := hinv.index.address
      named := hinv.index.named }
  rootAddress e he hpar hip := by
    obtain ⟨e, hmem, rfl⟩ := mem_map.1 he
    rw [hf.parent] at hpar
    rw [hf.part] at hip
    rw [hf.ref]
    exact hinv.rootAddress e hmem hpar hip
  paths h := by
    have hp := hinv.paths h
    rw [Db.nodes, host_mapHosts hf]
    rw [Db.nodes] at hp
    cases he : db.host h with
    | none => exact pathTree_nil
    | some e =>
      rw [he] at hp
      exact hpaths e hp
  unique := hunique

/-! ## Adding a host -/

/-- An address, or a name that neither starts nor ends with one. -/
def IndexSafe (P : Platform) (host : Bytes) : Prop :=
  hostIsIpAddress P host = true ∨
    hostIsIpAddress P ((labels (host.take 255)).headD []) = false ∧
      hostIsIpAddress P ((labels (host.take 255)).getLastD []) = false

instance (P : Platform) (host : Bytes) : Decidable (IndexSafe P host) :=
  inferInstanceAs (Decidable (_ ∨ _ ∧ _))

theorem IndexSafe.indexable (hP : P.Caseless) (hinv : DbInvariant P db) {host : Bytes}
    (hs : IndexSafe P host) : Indexable P host db := by
  rw [Indexable]
  split
  · next hip =>
    intro e he hpar hcmp
    rw [getSearchTree_eq_zero_iff.2 hip]
    refine hinv.rootAddress e he hpar ?_
    rw [← hostIsIpAddress_congr hP (strcasecmp_eq_iff.1 hcmp), hip]
  · next hip => exact (hs.resolve_left hip).1

theorem elim_host_of_created (hwf : hostForest.WellFormed db.hosts)
    (hwf' : hostForest.WellFormed db'.hosts) (hsub : ∀ e ∈ db.hosts, e ∈ db'.hosts)
    (hcreated : ∀ e ∈ db'.hosts, e ∈ db.hosts ∨ ∃ part parent, e = hostForest.fresh part parent)
    {α : Type} (g : HostPart → List α) (hg : ∀ part parent, g (hostForest.fresh part parent) = [])
    (h : HostRef) : (db'.host h).elim [] g = (db.host h).elim [] g := by
  cases he : db.host h with
  | some e =>
    obtain ⟨he, href⟩ := (host_eq_some_iff hwf).1 he
    rw [(host_eq_some_iff hwf').2 ⟨hsub e he, href⟩]
  | none =>
    cases he' : db'.host h with
    | none => rfl
    | some e' =>
      obtain ⟨hmem, href⟩ := (host_eq_some_iff hwf').1 he'
      rcases hcreated e' hmem with hold | ⟨part, parent, rfl⟩
      · rw [(host_eq_some_iff hwf).2 ⟨hold, href⟩] at he
        cases he
      · exact hg part parent

theorem HostAdded.host {i : Fin 28} {key r : HostRef} (ha : HostAdded P db i key r db')
    (hwf : hostForest.WellFormed db.hosts) {α : Type} (g : HostPart → List α)
    (hg : ∀ part parent, g (hostForest.fresh part parent) = []) (h : HostRef) :
    (db'.host h).elim [] g = (db.host h).elim [] g := by
  refine elim_host_of_created hwf ha.index.forest ha.sub (fun e he => ?_) g hg h
  refine (ha.created e he).imp id ?_
  rintro ⟨part, parent, -, rfl, -⟩
  exact ⟨part, parent, rfl⟩

/-- What every step of a call does: the invariant holds again, and nothing is undone. -/
structure Kept (P : Platform) (db db' : Db) : Prop where
  inv : DbInvariant P db'
  ext : Extends db db'

theorem Kept.refl (hinv : DbInvariant P db) : Kept P db db := ⟨hinv, .refl db⟩

theorem Kept.trans {db₁ db₂ db₃ : Db} (h₁ : Kept P db₁ db₂) (h₂ : Kept P db₂ db₃) : Kept P db₁ db₃ :=
  ⟨h₂.inv, h₁.ext.trans h₂.ext⟩

/-- What an addition of a host does to the database. -/
structure HostReady (P : Platform) (host : Bytes) (db : Db) (h : HostRef) (db' : Db) : Prop where
  kept : Kept P db db'
  indexed : h ∈ (db'.searchTrees (getSearchTree P host)).toList
  name : lowerRef h = lowerRef (storedKey P host) ∨ lowerRef h = lowerRef (hostKey P host)
  nodes : ∀ h, db'.nodes h = db.nodes h
  cookies : ∀ h, db'.cookies h = db.cookies h
  urlBloom : db'.urlBloom = db.urlBloom

theorem HostReady.cookiesAt {host : Bytes} (hr : HostReady P host db h db') (h' : HostRef)
    (d : PathRef) : db'.cookiesAt h' d = db.cookiesAt h' d := by
  cases d with
  | nil => exact hr.cookies h'
  | cons k d => simp only [Db.cookiesAt, hr.nodes]

theorem hostKey_ne_nil (P : Platform) (host : Bytes) : lowerRef (hostKey P host) ≠ [] := by
  rw [hostKey]
  split
  · exact cons_ne_nil _ _
  · intro hnil
    exact labels_ne_nil host (map_eq_nil_iff.1 hnil)

theorem storedKey_ne_nil (P : Platform) (host : Bytes) : lowerRef (storedKey P host) ≠ [] := by
  rw [storedKey]
  split
  · exact cons_ne_nil _ _
  · intro hnil
    exact labels_ne_nil _ (map_eq_nil_iff.1 hnil)

theorem HostReady.exists_host {host : Bytes} (hr : HostReady P host db h db') : ∃ e, db'.host h = some e := by
  have hwf := hr.kept.inv.index.forest
  rcases hr.kept.inv.index.isHost _ h hr.indexed with rfl | ⟨e, he, href⟩
  · rcases hr.name with hn | hn
    · exact absurd hn.symm (storedKey_ne_nil P host)
    · exact absurd hn.symm (hostKey_ne_nil P host)
  · exact ⟨e, (host_eq_some_iff hwf).2 ⟨he, href⟩⟩

theorem HostAdded.rootAddress {r : HostRef} (hP : P.Caseless) {host : Bytes} (hs : IndexSafe P host)
    (ha : HostAdded P db (getSearchTree P host) (storedKey P host) r db')
    (hold : ∀ e ∈ db.hosts, e.parent = [] → hostIsIpAddress P e.part = true → e.ref ∈ (db.searchTrees 0).toList)
    {e : HostPart} (he : e ∈ db'.hosts) (hpar : e.parent = [])
    (hip : hostIsIpAddress P e.part = true) : e.ref ∈ (db'.searchTrees 0).toList := by
  rcases ha.created e he with hmem | ⟨part, parent, ks, rfl, hpre, -, hname⟩
  · exact (ha.mem _ _).2 (Or.inl (hold e hmem hpar hip))
  · obtain rfl : parent = [] := hpar
    change hostIsIpAddress P part = true at hip
    change lowerRef [part] = lowerRef ks.reverse at hname
    have hlen : ks.length = 1 := by
      have := congrArg List.length hname
      simpa [KeyForest.normRef] using this.symm
    obtain ⟨k, rfl⟩ := length_eq_one_iff.1 hlen
    have hk : lower part = lower k := (List.cons.inj hname).1
    cases hh : hostIsIpAddress P host
    · have hlast : (labels (host.take 255)).getLastD [] = k := by
        obtain ⟨t, ht⟩ := hpre
        rw [storedKey, hh] at ht
        have := congrArg List.reverse ht
        simp only [Bool.false_eq_true, if_false, reverse_reverse, reverse_append, reverse_singleton] at this
        rw [← this, getLastD_concat]
      have hsafe := (hs.resolve_left (by rw [hh]; exact Bool.false_ne_true)).2
      rw [hlast, ← hostIsIpAddress_congr hP hk, hip] at hsafe
      cases hsafe
    · have hr : lowerRef r = lowerRef [part] := by
        obtain ⟨t, ht⟩ := hpre
        rw [storedKey, hh, if_pos rfl] at ht
        obtain ⟨rfl, -⟩ := List.cons.inj (show k :: t = [host] from ht)
        rw [ha.name, storedKey, hh, if_pos rfl]
        exact congrArg (fun s => [s]) hk.symm
      have hmem : r ∈ (db'.searchTrees 0).toList := (ha.mem 0 r).2 (Or.inr ⟨(getSearchTree_eq_zero_iff.2 hh).symm, rfl⟩)
      have heq : r = [part] := ha.index.forest.ref_eq_of_normRef (ha.index.isHost 0 _ hmem) (Or.inr ⟨_, he, rfl⟩) hr
      rw [heq] at hmem
      exact hmem

theorem addHost_ready (hP : P.Caseless) (hinv : DbInvariant P db) {host : Bytes} (hs : IndexSafe P host) :
    HostReady P host db (addHost P host db).1 (addHost P host db).2 := by
  have ha := addHost_spec hP hinv.index (hs.indexable hP hinv)
  generalize addHost P host db = r at ha ⊢
  have hnodes : ∀ h, r.2.nodes h = db.nodes h := ha.host hinv.index.forest _ fun _ _ => rfl
  have hcookies : ∀ h, r.2.cookies h = db.cookies h := ha.host hinv.index.forest _ fun _ _ => rfl
  refine ⟨⟨⟨ha.index, fun e => ha.rootAddress hP hs hinv.rootAddress, ?_, ?_⟩, ⟨?_, ?_, ?_⟩⟩, ?_,
    Or.inl ha.name, hnodes, hcookies, ha.urlBloom⟩
  · intro h
    rw [hnodes]
    exact hinv.paths h
  · intro h d
    have := hinv.unique h d
    cases d with
    | nil => rwa [Db.cookiesAt, hcookies]
    | cons k d => rwa [Db.cookiesAt, hnodes]
  · exact fun i d hd => (ha.mem i d).2 (Or.inl hd)
  · intro h d hd
    rwa [hnodes]
  · intro hash hb
    rwa [bloomKnows, ha.urlBloom]
  · exact (ha.mem _ _).2 (Or.inr ⟨rfl, rfl⟩)

/-! ## Adding a path -/

theorem elim_modifyHost {f : HostPart → HostPart} (hf : KeepsHost f) {α : Type}
    (g : HostPart → List α) (h h' : HostRef) :
    ((db.modifyHost h f).host h').elim [] g =
      if h' = h then (db.host h).elim [] (fun e => g (f e)) else (db.host h').elim [] g := by
  rw [host_modifyHost hf]
  by_cases hh : h' = h
  · subst hh
    cases db.host h' <;> simp
  · cases db.host h' <;> simp [hh]

theorem keepsHost_nodes (nodes : List PathData) : KeepsHost fun e => { e with nodes } := ⟨fun _ => rfl, fun _ => rfl⟩

theorem nodes_addPath {e : HostPart} (he : db.host h = some e) (scheme : Bytes) (port : UInt32)
    (path : Bytes) (fragment : Option Bytes) (url : Nsurl) (h' : HostRef) :
    (db.addPath P scheme port h path fragment url).2.nodes h' =
      if h' = h then (addPath P scheme port path fragment url (db.nodes h)).2 else db.nodes h' := by
  unfold Db.addPath
  simp only
  rw [Db.nodes, elim_modifyHost (keepsHost_nodes _), he]
  rfl

/-- `urldb_add_path` on the database. -/
structure PathReady (P : Platform) (db : Db) (h : HostRef) (d : PathRef) (db' : Db) : Prop where
  kept : Kept P db db'
  isRef : pathForest.IsRef (db'.nodes h) d
  searchTrees : db'.searchTrees = db.searchTrees
  urlBloom : db'.urlBloom = db.urlBloom
  host : ∀ h, (db'.host h).isSome = (db.host h).isSome
  cookiesAt : ∀ h' d', db'.cookiesAt h' d' = db.cookiesAt h' d'

theorem addPath_ready (hinv : DbInvariant P db) {e : HostPart} (he : db.host h = some e)
    (scheme : Bytes) (port : UInt32) (path : Bytes) (fragment : Option Bytes) (url : Nsurl) :
    (db.addPath P scheme port h path fragment url).1 = chain scheme port (segments (skipSlash path)) ∧
      PathReady P db h (chain scheme port (segments (skipSlash path)))
        (db.addPath P scheme port h path fragment url).2 := by
  obtain ⟨hname, ha⟩ := addPath_spec P scheme port path fragment url (hinv.paths h)
  have hnodes := nodes_addPath (P := P) he scheme port path fragment url
  simp only [Db.addPath] at hnodes ⊢
  generalize addPath P scheme port path fragment url (db.nodes h) = r at hname ha hnodes ⊢
  have hf := keepsHost_nodes r.2
  have hcookies : ∀ h' d', (db.modifyHost h fun e => { e with nodes := r.2 }).cookiesAt h' d' = db.cookiesAt h' d' := by
    intro h' d'
    cases d' with
    | nil =>
      rw [Db.cookiesAt, Db.cookies, elim_modifyHost hf]
      split
      · next hh => rw [hh]; rfl
      · rfl
    | cons k d' =>
      rw [Db.cookiesAt, Db.cookiesAt, hnodes]
      split
      · next hh => rw [hh]; exact ha.cookies _
      · rfl
  refine ⟨hname, ⟨⟨?_, ⟨fun _ _ h => h, ?_, fun _ h => h⟩⟩, ?_, rfl, rfl, ?_, hcookies⟩⟩
  · refine hinv.mapHosts (hf.at h) ?_ ?_
    · intro e' hp
      split
      · exact ha.tree
      · exact hp
    · intro h' d'
      have := hcookies h' d'
      rw [Db.modifyHost] at this
      rw [this]
      exact hinv.unique h' d'
  · intro h' d' hd'
    rw [hnodes]
    split
    · next hh =>
      subst hh
      exact ha.sub d' hd'
    · exact hd'
  · rw [hnodes, if_pos rfl]
    exact ha.isRef
  · intro h'
    rw [host_modifyHost hf, Option.isSome_map]

/-! ## Storing and removing cookies -/

theorem sameCookie_iff {a b : Cookie} :
    sameCookie a b = true ↔ (a.domain, a.path, a.name) = (b.domain, b.path, b.name) := by
  simp [sameCookie, and_assoc]

theorem sameCookie_congr {a b c : Cookie} (h : sameCookie a b = true) : sameCookie a c = sameCookie b c := by
  rw [Bool.eq_iff_iff, sameCookie_iff, sameCookie_iff, sameCookie_iff.1 h]

theorem mem_of_mem_storeCookie {now : Int} {c x : Cookie} {l : List Cookie}
    (hx : x ∈ storeCookie now c l) : x ∈ l ∨ x = c := by
  induction l with
  | nil => exact Or.inr (mem_singleton.1 hx)
  | cons d l ih =>
    simp only [storeCookie] at hx
    split at hx
    · split at hx
      · exact Or.inl (mem_cons_of_mem _ hx)
      · rcases List.mem_cons.1 hx with rfl | hx
        · exact Or.inr rfl
        · exact Or.inl (mem_cons_of_mem _ hx)
    · rcases List.mem_cons.1 hx with rfl | hx
      · exact Or.inl mem_cons_self
      · exact (ih hx).imp (mem_cons_of_mem _) id

theorem storeCookie_unique {now : Int} {c : Cookie} {l : List Cookie}
    (h : l.Pairwise fun a b => sameCookie a b = false) :
    (storeCookie now c l).Pairwise fun a b => sameCookie a b = false := by
  induction l with
  | nil => exact pairwise_singleton _ _
  | cons d l ih =>
    obtain ⟨hd, hl⟩ := pairwise_cons.1 h
    simp only [storeCookie]
    split
    · next hsame =>
      split
      · exact hl
      · refine pairwise_cons.2 ⟨fun x hx => ?_, hl⟩
        rw [← sameCookie_congr hsame]
        exact hd x hx
    · next hsame =>
      refine pairwise_cons.2 ⟨fun x hx => ?_, ih hl⟩
      rcases mem_of_mem_storeCookie hx with hx | rfl
      · exact hd x hx
      · exact Bool.not_eq_true _ ▸ hsame

end Nami.Urldb

/-! ## Hosts and domains

`urldb_set_cookie` compares the domain of a cookie with the host as strings (`domainMatches`).
`urldb_get_cookie` finds the cookie through the host tree, where the labels of the domain end those of
the host. Both mean `InDomain` (`domainMatches_dotted`, `inDomain_iff_suffix`), except where the domain
is an address: an address is one label.
-/

namespace Nami.Urldb

open Ascii

variable {P : Platform} {host domain : Bytes}

/-! ### Labels -/

theorem intercalate_append {sep : Bytes} {xs ys : List Bytes} (hx : xs ≠ []) (hy : ys ≠ []) :
    sep.intercalate (xs ++ ys) = sep.intercalate xs ++ sep ++ sep.intercalate ys := by
  induction xs with
  | nil => exact absurd rfl hx
  | cons x xs ih =>
    by_cases h : xs = []
    · subst h
      rw [List.singleton_append, List.intercalate_cons_of_ne_nil hy, List.intercalate_singleton]
    · rw [List.cons_append, List.intercalate_cons_of_ne_nil (List.append_ne_nil_of_left_ne_nil h _),
        ih h, List.intercalate_cons_of_ne_nil h]
      simp only [List.append_assoc]

theorem intercalate_labels (s : Bytes) : [('.' : UInt8)].intercalate (labels s) = s := List.intercalate_splitOn _

theorem labels_suffix_iff {a b : Bytes} : labels b <:+ labels a ↔ a = b ∨ ('.' : UInt8) :: b <:+ a := by
  constructor
  · rintro ⟨xs, hxs⟩
    rw [← intercalate_labels a, ← hxs]
    by_cases hx : xs = []
    · subst hx
      exact Or.inl (intercalate_labels b)
    · rw [intercalate_append hx (labels_ne_nil b), intercalate_labels, List.append_assoc]
      exact Or.inr (List.suffix_append _ _)
  · rintro (rfl | ⟨s, rfl⟩)
    · exact List.suffix_rfl
    · rw [labels, labels, List.splitOn_append_cons_self]
      exact List.suffix_append _ _

/-- The host is the domain without its dot, or ends with the domain. -/
def InDomain (domain host : Bytes) : Prop :=
  lower host = lower (domain.drop 1) ∨ lower domain <:+ lower host

theorem lower_dotted (hdot : domain.head? = some ('.' : UInt8)) :
    lower domain = ('.' : UInt8) :: lower (domain.drop 1) := by
  obtain ⟨s, rfl⟩ := List.head?_eq_some_iff.1 hdot
  rw [lower_cons, (toLower_eq_iff (by decide +kernel)).2 rfl]
  rfl

theorem inDomain_iff_suffix (hdot : domain.head? = some ('.' : UInt8)) :
    InDomain domain host ↔ lowerRef (labels (domain.drop 1)) <:+ lowerRef (labels host) := by
  have h : ∀ s : Bytes, lowerRef (labels s) = labels (lower s) := fun s => (labels_lower s).symm
  rw [h, h, labels_suffix_iff, InDomain, lower_dotted hdot]

/-! ### The check of `urldb_set_cookie` -/

theorem cstr_isPrefix (s : Bytes) : cstr s <+: s := List.takeWhile_prefix _

theorem hostIsIpAddress_dot (hP : P.RefusesDot) (hdot : host.head? = some ('.' : UInt8)) :
    hostIsIpAddress P host = false := by
  obtain ⟨s, rfl⟩ := List.head?_eq_some_iff.1 hdot
  have hsane : (('.' : UInt8) :: s).takeWhile (· ≠ ('/' : UInt8)) =
      ('.' : UInt8) :: s.takeWhile (· ≠ ('/' : UInt8)) := List.takeWhile_cons_of_pos (by decide)
  have hhead : (some ('.' : UInt8) != some ('[' : UInt8)) = true := by decide
  simp only [hostIsIpAddress, hsane, hP (s.takeWhile (· ≠ ('/' : UInt8))), List.head?_cons, hhead,
    Bool.or_true, Bool.true_or, Bool.false_eq_true, if_true, if_false, ite_self]

theorem domainMatches_dotted (h : domainMatches P host domain = true)
    (hdot : domain.head? = some ('.' : UInt8)) : ∃ s, lower s = lower (domain.drop 1) ∧
      (cstr host = ('.' : UInt8) :: s ∨
        hostIsIpAddress P (cstr host) = false ∧ (cstr host = s ∨ ('.' : UInt8) :: s <:+ host)) := by
  have hhead : ∀ s : Bytes, lower s = lower domain → ∃ t, s = ('.' : UInt8) :: t ∧ lower t = lower (domain.drop 1) := by
    intro s hs
    rw [lower_dotted hdot] at hs
    cases s with
    | nil => cases hs
    | cons c t =>
      rw [lower_cons] at hs
      obtain ⟨hc, ht⟩ := List.cons.inj hs
      exact ⟨t, by rw [(toLower_eq_iff (by decide +kernel)).1 hc], ht⟩
  simp only [domainMatches] at h
  split at h
  · next heq =>
    obtain ⟨t, ht, htl⟩ := hhead _ (strcasecmp_eq_iff.1 (eq_of_beq heq))
    exact ⟨t, htl, Or.inl ht⟩
  · split at h
    · cases h
    · next hip =>
      rw [Bool.not_eq_true] at hip
      split at h
      · cases h
      · next hlen =>
        split at h
        · exact ⟨cstr host, strcasecmp_eq_iff.1 (eq_of_beq h), Or.inr ⟨hip, Or.inl rfl⟩⟩
        · next hlen' =>
          have h := strcasecmp_eq_iff.1 (eq_of_beq h)
          obtain ⟨t, ht, htl⟩ := hhead _ h
          -- the end of the host has the length of the domain, so there is no zero byte in it
          have hcut : cstr (host.drop (host.length - domain.length)) = host.drop (host.length - domain.length) := by
            refine (cstr_isPrefix _).eq_of_length ?_
            have := congrArg List.length h
            rw [length_lower, length_lower] at this
            rw [this, List.length_drop]
            omega
          refine ⟨t, htl, Or.inr ⟨hip, Or.inr ?_⟩⟩
          rw [← ht, hcut]
          exact List.drop_suffix _ _

/-! ### The hosts of cookies -/

/-- The host for the cookies of a domain. -/
def domainHost (domain : Bytes) : Bytes :=
  if domain.head? = some ('.' : UInt8) then domain.drop 1 else domain

/-- The host, and what follows each dot in it. -/
def domainsOf (host : Bytes) : List Bytes :=
  host :: host.tails.filterMap fun s => if s.head? = some ('.' : UInt8) then some (s.drop 1) else none

theorem mem_domainsOf {s : Bytes} : s ∈ domainsOf host ↔ s = host ∨ ('.' : UInt8) :: s <:+ host := by
  rw [domainsOf, List.mem_cons, List.mem_filterMap]
  refine or_congr Iff.rfl ?_
  constructor
  · rintro ⟨t, ht, hs⟩
    split at hs
    · next hdot =>
      obtain ⟨t, rfl⟩ := List.head?_eq_some_iff.1 hdot
      cases hs
      exact (List.mem_tails _ _).1 ht
    · cases hs
  · exact fun hs => ⟨_, (List.mem_tails _ _).2 hs, rfl⟩

theorem IndexSafe.congr (hP : P.Caseless) {a b : Bytes} (h : lower a = lower b)
    (hs : IndexSafe P a) : IndexSafe P b := by
  have hlab : (labels (a.take 255)).map lower = (labels (b.take 255)).map lower := by
    rw [← labels_lower, ← labels_lower, lower, lower, List.map_take, List.map_take, ← lower, h, lower]
  have hfirst : ∀ l : List Bytes, lower (l.headD []) = (l.map lower).headD [] := by
    intro l
    cases l <;> rfl
  have hfinal : ∀ l : List Bytes, lower (l.getLastD []) = (l.map lower).getLastD [] := by
    intro l
    rw [List.getLastD_eq_getLast?, List.getLastD_eq_getLast?, List.getLast?_map]
    cases l.getLast? <;> rfl
  have hhead : lower ((labels (a.take 255)).headD []) = lower ((labels (b.take 255)).headD []) := by
    rw [hfirst, hlab, hfirst]
  have hlast : lower ((labels (a.take 255)).getLastD []) = lower ((labels (b.take 255)).getLastD []) := by
    rw [hfinal, hlab, hfinal]
  rw [IndexSafe, ← hostIsIpAddress_congr hP h, ← hostIsIpAddress_congr hP hhead, ← hostIsIpAddress_congr hP hlast]
  exact hs

theorem indexSafe_domainHost (hP : P.Caseless) (hs : ∀ s ∈ domainsOf (cstr host) ++ domainsOf host, IndexSafe P s)
    (hmatch : domainMatches P host domain = true)
    (hd : domain.head? = some ('.' : UInt8) ∨ domain = cstr host) :
    IndexSafe P (domainHost domain) := by
  by_cases hdot : domain.head? = some ('.' : UInt8)
  · obtain ⟨s, hlow, hcases⟩ := domainMatches_dotted hmatch hdot
    rw [domainHost, if_pos hdot]
    refine IndexSafe.congr hP hlow (hs s (List.mem_append.2 ?_))
    rcases hcases with hc | ⟨-, hc | hc⟩
    · exact Or.inl (mem_domainsOf.2 (Or.inr (hc ▸ List.suffix_rfl)))
    · exact Or.inl (mem_domainsOf.2 (Or.inl hc.symm))
    · exact Or.inr (mem_domainsOf.2 (Or.inr hc))
  · rw [domainHost, if_neg hdot, hd.resolve_left hdot]
    exact hs _ (List.mem_append.2 (Or.inl (mem_domainsOf.2 (Or.inl rfl))))

end Nami.Urldb
