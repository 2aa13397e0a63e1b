import Nami.Urldb.Verify.NodeUrls

/-!
# What `urldb_iterate_entries` reports

The traversal of a path tree visits each node once (`walk_visits`), and reports the ones without children.
After URLs are added to an empty database, the nodes of a host are those of its URLs and those on the way
to them (`AddedInv`), so a URL on the way to another is not reported.
-/

namespace Nami.Urldb

open List
open TreeWalk

variable {P : Platform} {db db' : Db} {h : HostRef} {d : PathRef} {url w : Nsurl}
variable {nodes : List PathData}

/-! ## The traversal -/

theorem mem_kids {k : PathKey} : k ∈ kids nodes d ↔ ∃ p ∈ nodes, p.ref = k :: d := by
  simp only [kids, mem_map, mem_children]
  constructor
  · rintro ⟨p, ⟨hp, rfl⟩, rfl⟩
    exact ⟨p, hp, rfl⟩
  · rintro ⟨p, hp, href⟩
    obtain ⟨hkey, hparent⟩ := List.cons.inj href
    exact ⟨p, ⟨hp, hparent⟩, hkey⟩

theorem PathTree.nodup_kids (h : PathTree nodes) (d : PathRef) : (kids nodes d).Nodup := by
  have hnd : (children nodes d).Nodup := (List.Nodup.of_map _ h.forest.distinct).filter _
  refine (nodup_map_iff_inj_on hnd).2 fun p hp q hq hkey => ?_
  obtain ⟨hp, hpd⟩ := mem_children.1 hp
  obtain ⟨hq, hqd⟩ := mem_children.1 hq
  apply h.eq_of_ref hp hq
  exact congrArg₂ List.cons hkey (hpd.trans hqd.symm)

theorem PathTree.isTree (h : PathTree nodes) : IsTree (kids nodes) fun d => ∃ p ∈ nodes, p.ref = d := by
  refine ⟨fun k d => mem_kids, fun k d ⟨p, hp, href⟩ => ?_⟩
  have hclosed := h.forest.closed p hp
  rw [show pathForest.parent p = d from (List.cons.inj href).2] at hclosed
  exact hclosed

theorem PathTree.length_le (h : PathTree nodes) (hd : ∃ p ∈ nodes, p.ref = d) : d.length ≤ nodes.length := by
  have hnd : ((List.range d.length).map d.drop).Nodup := by
    refine nodup_range.map_on fun i hi j hj hij => ?_
    have hlen := congrArg List.length hij
    rw [length_drop, length_drop] at hlen
    rw [mem_range] at hi hj
    omega
  have hsub : (List.range d.length).map d.drop ⊆ nodes.map PathData.ref := by
    intro r hr
    obtain ⟨i, hi, rfl⟩ := mem_map.1 hr
    rw [mem_range] at hi
    have hne : d.drop i ≠ [] := by
      intro hnil
      rw [drop_eq_nil_iff] at hnil
      omega
    obtain ⟨p, hp, href⟩ := h.isTree.of_suffix hd (drop_suffix i d) hne
    exact mem_map.2 ⟨p, hp, href⟩
  have hle := (hnd.subperm hsub).length_le
  rwa [length_map, length_map, length_range] at hle

theorem PathTree.walk_below (h : PathTree nodes) (d : PathRef) :
    ∃ visited, walk (fun r => kids nodes (r ++ d)) (nodes.length + 1) [] = some visited ∧ visited.Nodup ∧
      ∀ r, r ∈ visited ↔ r = [] ∨ ∃ p ∈ nodes, p.ref = r ++ d := by
  have htree : IsTree (fun r => kids nodes (r ++ d)) fun r => ∃ p ∈ nodes, p.ref = r ++ d := by
    refine ⟨fun k r => h.isTree.kid k (r ++ d), fun k r hr => ?_⟩
    refine (h.isTree.parent k (r ++ d) hr).imp (fun hnil => ?_) id
    exact (append_eq_nil_iff.1 hnil).1
  have hfit : Fits (fun r => kids nodes (r ++ d)) (nodes.length + 1) [] := by
    refine fits_of_length htree (fun r hr => ?_) (Or.inl rfl)
    have hle := h.length_le hr
    rw [length_append] at hle
    omega
  have hnd := nodup_preorder (fun r => h.nodup_kids (r ++ d)) (nodes.length + 1) []
  have hmem : ∀ r, r ∈ TreeWalk.preorder (fun r => kids nodes (r ++ d)) (nodes.length + 1) [] ↔
      r = [] ∨ ∃ p ∈ nodes, p.ref = r ++ d := by
    intro r
    rw [mem_preorder_iff htree hfit]
    exact and_iff_right nil_suffix
  generalize hvisited : TreeWalk.preorder (fun r => kids nodes (r ++ d)) (nodes.length + 1) [] = visited at hnd hmem
  have hlen : visited.length ≤ nodes.length + 1 := by
    have hnd' : (visited.map (· ++ d)).Nodup := hnd.map (append_left_injective d)
    have hsub : visited.map (· ++ d) ⊆ d :: nodes.map PathData.ref := by
      intro r' hr'
      obtain ⟨r, hr, rfl⟩ := mem_map.1 hr'
      rcases (hmem r).1 hr with rfl | ⟨p, hp, href⟩
      · exact mem_cons_self
      · rw [← href]
        exact mem_cons_of_mem _ (mem_map_of_mem hp)
    have hle := (hnd'.subperm hsub).length_le
    rwa [length_map, length_cons, length_map] at hle
  rw [← hvisited] at hlen
  have hwalk := walk_eq_preorder (fun r => h.nodup_kids (r ++ d)) hfit hlen
  rw [hvisited] at hwalk
  exact ⟨visited, hwalk, hnd, hmem⟩

/-! ## The calls -/

theorem exists_callEach {α β : Type} {f : α → Option (List β × Bool)} {R : α → β → Prop} {l : List α} (hl : l.Nodup)
    (hf : ∀ x ∈ l, ∃ calls, f x = some (calls, true) ∧ calls.Nodup ∧ ∀ y, y ∈ calls ↔ R x y)
    (hinj : ∀ x ∈ l, ∀ x' ∈ l, ∀ y, R x y → R x' y → x = x') :
    ∃ calls, callEach f l = some (calls, true) ∧ calls.Nodup ∧ ∀ y, y ∈ calls ↔ ∃ x ∈ l, R x y := by
  induction l with
  | nil => exact ⟨[], rfl, nodup_nil, fun y => by simp⟩
  | cons x l ih =>
    obtain ⟨hx, hnd⟩ := nodup_cons.1 hl
    obtain ⟨calls, hcalls, hnd₁, hmem₁⟩ := hf x mem_cons_self
    obtain ⟨rest, hrest, hnd₂, hmem₂⟩ := ih hnd (fun y hy => hf y (mem_cons_of_mem _ hy))
      fun y hy y' hy' => hinj y (mem_cons_of_mem _ hy) y' (mem_cons_of_mem _ hy')
    refine ⟨calls ++ rest, ?_, ?_, fun y => ?_⟩
    · simp only [callEach, hcalls, hrest, Option.map_some]
    · refine nodup_append.2 ⟨hnd₁, hnd₂, ?_⟩
      rintro y hy _ hy' rfl
      obtain ⟨x', hx', hR⟩ := (hmem₂ y).1 hy'
      have heq := hinj x mem_cons_self x' (mem_cons_of_mem _ hx') y ((hmem₁ y).1 hy) hR
      rw [heq] at hx
      exact hx hx'
    · rw [mem_append, hmem₁, hmem₂]
      simp only [mem_cons, exists_eq_or_imp]

/-- The node has no children. -/
def IsLeaf (nodes : List PathData) (d : PathRef) : Prop :=
  (∃ p ∈ nodes, p.ref = d) ∧ kids nodes d = []

theorem hasUrl_iff_find (h : PathTree nodes) : (nodes.find? (·.ref = d)).bind (·.url) = some w ↔ HasUrl nodes d w := by
  constructor
  · intro hw
    obtain ⟨p, hfind, hurl⟩ := Option.bind_eq_some_iff.1 hw
    have href := List.find?_some hfind
    exact ⟨p, mem_of_find?_eq_some hfind, of_decide_eq_true href, hurl⟩
  · rintro ⟨p, hp, rfl, hurl⟩
    cases hfind : nodes.find? (·.ref = p.ref) with
    | none => exact absurd (decide_eq_true rfl) (List.find?_eq_none.1 hfind p hp)
    | some q =>
      have href := List.find?_some hfind
      rw [h.eq_of_ref (mem_of_find?_eq_some hfind) hp (of_decide_eq_true href)]
      exact hurl

theorem iterateEntry_spec (h : PathTree nodes) (hurls : ∀ d, IsLeaf nodes d → ∃ w, HasUrl nodes d w)
    (hnode : kids nodes d = [] → ∃ p ∈ nodes, p.ref = d) :
    ∃ calls, iterateEntry (fun _ => true) nodes d = some (calls, true) ∧ calls.Nodup ∧
      ∀ w, w ∈ calls ↔ IsLeaf nodes d ∧ HasUrl nodes d w := by
  unfold iterateEntry
  by_cases hk : kids nodes d = []
  · have hleaf : IsLeaf nodes d := ⟨hnode hk, hk⟩
    obtain ⟨w, hw⟩ := hurls d hleaf
    rw [if_neg (not_not.2 hk), (hasUrl_iff_find h).2 hw]
    refine ⟨[w], rfl, nodup_singleton w, fun w' => ?_⟩
    rw [mem_singleton, and_iff_right hleaf]
    constructor
    · rintro rfl
      exact hw
    · exact fun hw' => hw'.unique h hw
  · rw [if_pos hk]
    exact ⟨[], rfl, nodup_nil, fun w => by simp [IsLeaf, hk]⟩

theorem iterateEntriesPath_spec (h : PathTree nodes) (hne : kids nodes [] ≠ [])
    (hurls : ∀ d, IsLeaf nodes d → ∃ w, HasUrl nodes d w)
    (hinj : ∀ d d' w, HasUrl nodes d w → HasUrl nodes d' w → d = d') :
    ∃ calls, iterateEntriesPath (fun _ => true) nodes = some (calls, true) ∧ calls.Nodup ∧
      ∀ w, w ∈ calls ↔ ∃ d, IsLeaf nodes d ∧ HasUrl nodes d w := by
  obtain ⟨visited, hwalk, hnd, hmem⟩ := h.walk_below []
  simp only [append_nil] at hwalk hmem
  obtain ⟨calls, hcalls, hnd', hmem'⟩ := @exists_callEach _ _
    (iterateEntry (fun _ => true) nodes) (fun d w => IsLeaf nodes d ∧ HasUrl nodes d w) visited hnd
    (by
      intro d hd
      apply iterateEntry_spec h hurls
      intro hk
      refine ((hmem d).1 hd).resolve_left ?_
      rintro rfl
      exact hne hk)
    fun d _ d' _ w hw hw' => hinj d d' w hw.2 hw'.2
  refine ⟨calls, ?_, hnd', fun w => ?_⟩
  · unfold iterateEntriesPath
    simp only [hwalk, hcalls]
  · rw [hmem']
    constructor
    · rintro ⟨d, -, hd⟩
      exact ⟨d, hd⟩
    · rintro ⟨d, hd⟩
      exact ⟨d, (hmem d).2 (Or.inr hd.1.1), hd⟩

/-! ## Adding URLs -/

theorem isRef_addPath (P : Platform) (scheme : Bytes) (port : UInt32) (path : Bytes)
    (fragment : Option Bytes) (url : Nsurl) (h : PathTree nodes)
    (hd : pathForest.IsRef (addPath P scheme port path fragment url nodes).2 d) :
    pathForest.IsRef nodes d ∨ d <:+ chain scheme port (segments (skipSlash path)) := by
  have hspec := KeyForest.descend_spec (pathKeys scheme port path) h.forest (d := []) (Or.inl rfl)
  simp only [addPath] at hd
  generalize pathForest.descend (pathKeys scheme port path) [] nodes = r at hspec hd
  have hk₁ := (keepsNode_addPathFragment fragment).at r.1
  have hk₂ := (keepsNode_setPathUrl P url).at r.1
  rw [modifyPath, modifyPath, KeyForest.isRef_map hk₂.ref, KeyForest.isRef_map hk₁.ref] at hd
  rcases hd with rfl | ⟨p, hp, rfl⟩
  · exact Or.inl (Or.inl rfl)
  · rcases hspec.created p hp with hp | ⟨k, parent, ks, rfl, hpre, -, hname⟩
    · exact Or.inl (Or.inr ⟨p, hp, rfl⟩)
    · rw [normRef_path, normRef_path, append_nil] at hname
      rw [KeyForest.ref_fresh, hname]
      have hsuf := reverse_suffix.2 hpre
      exact Or.inr hsuf

/-- The place of a URL: its host, in lower case, and its path node. -/
def placeOf (P : Platform) (url : Nsurl) : Option (HostRef × PathRef) :=
  match url.components.scheme, hostStrOf url, pathQueryOf url with
  | some scheme, some host, some plq =>
    some (lowerRef (storedKey P host), chain scheme (portOf url) (segments (skipSlash plq)))
  | _, _, _ => none

theorem placeOf_defragment : placeOf P (Nsurl.defragment P url) = placeOf P url := by
  unfold placeOf
  rw [hostStrOf_defragment, pathQueryOf_defragment, portOf_defragment, defragment_components]

/-! ## The host index -/

/-- What holds of the host index after any additions. -/
structure HostTrees (P : Platform) (db : Db) : Prop where
  forest : hostForest.WellFormed db.hosts
  sorted : ∀ i, (db.searchTrees i).Sorted searchMatchHost
  isHost : ∀ i, ∀ h ∈ (db.searchTrees i).toList, hostForest.IsRef db.hosts h
  filed : ∀ i, ∀ h ∈ (db.searchTrees i).toList, i = getSearchTree P (h.headD [])

/-- The host is in one of the search trees. -/
def Db.Indexed (db : Db) (h : HostRef) : Prop := ∃ i, h ∈ (db.searchTrees i).toList

theorem HostTrees.searchInsert (ht : HostTrees P db) (hh : hostForest.IsRef db.hosts h) {i : Fin 28}
    (hi : i = getSearchTree P (h.headD [])) : HostTrees P (searchInsert i h db) ∧
      ∀ x, (Urldb.searchInsert i h db).Indexed x ↔ db.Indexed x ∨ x = h := by
  have hmem := @mem_searchInsert db i h ht.forest ht.sorted ht.isHost hh
  refine ⟨⟨ht.forest, sorted_searchInsert ht.sorted, ?_, ?_⟩, fun x => ?_⟩
  · intro j x hx
    rcases (hmem j x).1 hx with hx | ⟨-, rfl⟩
    · exact ht.isHost j x hx
    · exact hh
  · intro j x hx
    rcases (hmem j x).1 hx with hx | ⟨rfl, rfl⟩
    · exact ht.filed j x hx
    · exact hi
  · unfold Db.Indexed
    simp only [hmem, exists_or, exists_and_right, exists_eq, true_and]

/-- What the addition of a host does. An address that is there already is not indexed. -/
structure HostFiled (P : Platform) (host : Bytes) (db : Db) (h : HostRef) (db' : Db) : Prop where
  trees : HostTrees P db'
  isRef : hostForest.IsRef db'.hosts h
  name : lowerRef h = lowerRef (storedKey P host)
  indexed : ∀ x, db'.Indexed x ↔ db.Indexed x ∨
    x = h ∧ (hostIsIpAddress P host = true → ¬ hostForest.IsRef db.hosts h)
  sub : ∀ e ∈ db.hosts, e ∈ db'.hosts
  created : ∀ e ∈ db'.hosts, e ∈ db.hosts ∨ ∃ part parent, e = hostForest.fresh part parent ∧
    lowerRef e.ref <:+ lowerRef (storedKey P host)

theorem addHost_filed (hP : P.Caseless) (ht : HostTrees P db) (host : Bytes) :
    HostFiled P host db (addHost P host db).1 (addHost P host db).2 := by
  cases hip : hostIsIpAddress P host with
  | false =>
    have hd := KeyForest.descend_spec (labels (host.take 255)).reverse ht.forest (Or.inl rfl)
    unfold addHost addNamedHost
    simp only [hip, Bool.false_eq_true, if_false]
    generalize hostForest.descend (labels (host.take 255)).reverse [] db.hosts = r at hd ⊢
    obtain ⟨hwf, href, hname, hsub, hnew⟩ := hd
    have hkey : storedKey P host = labels (host.take 255) := by
      unfold storedKey
      rw [hip]
      rfl
    have hname' : lowerRef r.1 = lowerRef (labels (host.take 255)) := by
      simpa using hname
    have hhead : getSearchTree P ((labels (host.take 255)).headD []) = getSearchTree P (r.1.headD []) := by
      apply getSearchTree_congr hP
      have hmap : ∀ l : HostRef, lower (l.headD []) = (lowerRef l).headD [] := by
        intro l
        cases l <;> rfl
      rw [hmap, ← hname', ← hmap]
    have ht' : HostTrees P { db with hosts := r.2 } :=
      ⟨hwf, ht.sorted, fun i h hh => (ht.isHost i h hh).mono hsub, ht.filed⟩
    obtain ⟨ht'', hindexed⟩ := ht'.searchInsert href hhead
    refine ⟨ht'', href, by rw [hkey, hname'], fun x => ?_, hsub, fun e he => ?_⟩
    · rw [hindexed]
      simp only [hip, Bool.false_eq_true, false_implies, and_true]
      rfl
    · refine (hnew e he).imp id ?_
      rintro ⟨part, parent, ks, rfl, hpre, -, heq⟩
      refine ⟨part, parent, rfl, ?_⟩
      rw [HostPart.ref, KeyForest.ref_fresh, lowerRef, heq, hkey, append_nil]
      have hsuf := reverse_suffix.2 hpre
      rw [reverse_reverse] at hsuf
      exact hsuf.map lower
  | true =>
    have hkey : storedKey P host = [host] := if_pos hip
    cases hf : hostForest.findChild db.hosts [] host with
    | some e =>
      obtain ⟨he, hp, hk⟩ := KeyForest.findChild_eq_some hf
      have heq : addHost P host db = (e.ref, db) := by
        unfold addHost addIpHost
        rw [if_pos hip, hf]
      rw [heq]
      refine ⟨ht, Or.inr ⟨e, he, rfl⟩, ?_, fun x => ?_, fun _ h => h, fun e he => Or.inl he⟩
      · rw [hkey]
        simp only [lowerRef, KeyForest.normRef, HostPart.ref, KeyForest.ref, hp, map_cons]
        exact congrArg (fun s => [s]) hk.symm
      · refine ⟨Or.inl, ?_⟩
        rintro (hx | ⟨rfl, hx⟩)
        · exact hx
        · exact absurd (Or.inr ⟨e, he, rfl⟩) (hx hip)
    | none =>
      have hwf := ht.forest.place (Or.inl rfl) hf
      have hsub : ∀ e ∈ db.hosts, e ∈ hostForest.fresh host [] :: db.hosts := fun e he => mem_cons_of_mem _ he
      have ht' : HostTrees P { db with hosts := hostForest.fresh host [] :: db.hosts } :=
        ⟨hwf, ht.sorted, fun i h hh => (ht.isHost i h hh).mono hsub, ht.filed⟩
      have href : hostForest.IsRef (hostForest.fresh host [] :: db.hosts) [host] := Or.inr ⟨_, mem_cons_self, rfl⟩
      obtain ⟨ht'', hindexed⟩ := ht'.searchInsert href (getSearchTree_eq_zero_iff.2 hip).symm
      have heq : addHost P host db = ([host], searchInsert 0 [host]
          { db with hosts := hostForest.fresh host [] :: db.hosts }) := by
        unfold addHost addIpHost
        rw [if_pos hip, hf]
        rfl
      rw [heq]
      refine ⟨ht'', href, by rw [hkey], fun x => ?_, hsub, fun e he => ?_⟩
      · have hnew : ¬ hostForest.IsRef db.hosts [host] := by
          rintro (hnil | ⟨e, he, href⟩)
          · cases hnil
          · obtain ⟨hpart, hparent⟩ := List.cons.inj href
            exact KeyForest.findChild_eq_none hf he hparent (congrArg lower hpart.symm)
        rw [hindexed, and_iff_left fun _ => hnew]
        rfl
      · rcases mem_cons.1 he with rfl | he
        · refine Or.inr ⟨host, [], rfl, ?_⟩
          rw [hkey]
          exact suffix_rfl
        · exact Or.inl he

/-! ## The place of a URL -/

theorem placeOf_eq_some {r : HostRef} (h : placeOf P url = some (r, d)) : ∃ scheme host plq,
    url.components.scheme = some scheme ∧ hostStrOf url = some host ∧ pathQueryOf url = some plq ∧
      lowerRef (storedKey P host) = r ∧ chain scheme (portOf url) (segments (skipSlash plq)) = d := by
  unfold placeOf at h
  cases hscheme : url.components.scheme with
  | none => simp [hscheme] at h
  | some scheme =>
    cases hhost : hostStrOf url with
    | none => simp [hscheme, hhost] at h
    | some host =>
      cases hplq : pathQueryOf url with
      | none => simp [hscheme, hhost, hplq] at h
      | some plq =>
        simp only [hscheme, hhost, hplq, Option.some.injEq, Prod.mk.injEq] at h
        exact ⟨scheme, host, plq, rfl, rfl, rfl, h⟩

theorem addUrl_of_placeOf_none (h : placeOf P url = none) : (addUrl P url db).1 = addToBloom url db := by
  unfold placeOf at h
  unfold addUrl
  cases hscheme : url.components.scheme with
  | none => cases pathQueryOf url <;> rfl
  | some scheme =>
    cases hhost : hostStrOf url with
    | none => cases pathQueryOf url <;> rfl
    | some host =>
      cases hplq : pathQueryOf url with
      | none => rfl
      | some plq => simp [hscheme, hhost, hplq] at h

/-- The host of the URL is an address. -/
def AddressUrl (P : Platform) (url : Nsurl) : Prop :=
  ∃ host, hostStrOf url = some host ∧ hostIsIpAddress P host = true

/-- What the addition of a URL does. -/
structure PlaceAdded (P : Platform) (url : Nsurl) (db : Db) (h : HostRef) (d : PathRef) (db' : Db) :
    Prop where
  trees : HostTrees P db'
  paths : ∀ h, PathTree (db'.nodes h)
  host : hostForest.IsRef db'.hosts h
  indexed : ∀ x, db'.Indexed x ↔ db.Indexed x ∨
    x = h ∧ (AddressUrl P url → ¬ hostForest.IsRef db.hosts h)
  hosts : ∀ r, hostForest.IsRef db.hosts r → hostForest.IsRef db'.hosts r
  newHosts : ∀ r, hostForest.IsRef db'.hosts r → hostForest.IsRef db.hosts r ∨ lowerRef r <:+ lowerRef h
  isRef : pathForest.IsRef (db'.nodes h) d
  nodes : ∀ h' d', pathForest.IsRef (db.nodes h') d' → pathForest.IsRef (db'.nodes h') d'
  newNodes : ∀ h' d', pathForest.IsRef (db'.nodes h') d' →
    pathForest.IsRef (db.nodes h') d' ∨ h' = h ∧ d' <:+ d
  url : UrlWritten db.HasUrl (h, d) (Nsurl.defragment P url) db'.HasUrl

theorem addUrl_place (hP : P.Caseless) (ht : HostTrees P db) (hpaths : ∀ h, PathTree (db.nodes h))
    {r : HostRef} (hplace : placeOf P url = some (r, d)) :
    ∃ h, lowerRef h = r ∧ PlaceAdded P url db h d (addUrl P url db).1 := by
  obtain ⟨scheme, host, plq, hscheme, hhost, hplq, rfl, rfl⟩ := placeOf_eq_some hplace
  have hadd : (addUrl P url db).1 = ((addHost P host (addToBloom url db)).2.addPath P scheme (portOf url)
      (addHost P host (addToBloom url db)).1 plq url.components.fragment url).2 := by
    unfold addUrl
    simp only [hscheme, hhost, hplq]
  have ht₀ : HostTrees P (addToBloom url db) := ⟨ht.forest, ht.sorted, ht.isHost, ht.filed⟩
  have hf := addHost_filed hP ht₀ host
  rw [hadd]
  generalize addHost P host (addToBloom url db) = q at hf ⊢
  have haddr : AddressUrl P url ↔ hostIsIpAddress P host = true := by
    unfold AddressUrl
    simp only [hhost, Option.some.injEq, exists_eq_left']
  have hold : ∀ h, q.2.nodes h = db.nodes h := by
    refine elim_host_of_created ht.forest hf.trees.forest hf.sub (fun e he => ?_) _ fun _ _ => rfl
    refine (hf.created e he).imp id ?_
    rintro ⟨part, parent, rfl, -⟩
    exact ⟨part, parent, rfl⟩
  obtain ⟨e, he⟩ : ∃ e, q.2.host q.1 = some e := by
    rcases hf.isRef with hnil | ⟨e, he, href⟩
    · have hname := hf.name
      rw [hnil] at hname
      exact absurd hname.symm (storedKey_ne_nil P host)
    · exact ⟨e, (host_eq_some_iff hf.trees.forest).2 ⟨he, href⟩⟩
  have htree : PathTree (q.2.nodes q.1) := by
    rw [hold]
    exact hpaths q.1
  obtain ⟨-, ha⟩ := addPath_spec P scheme (portOf url) plq url.components.fragment url htree
  have hnodes := nodes_addPath (P := P) he scheme (portOf url) plq url.components.fragment url
  have hurl := urlWritten_dbAddPath (P := P) htree he scheme (portOf url) plq url.components.fragment url
  have hway := fun d' => @isRef_addPath d' (q.2.nodes q.1) P scheme (portOf url) plq url.components.fragment url htree
  have hhosts : ∀ r, hostForest.IsRef (q.2.addPath P scheme (portOf url) q.1 plq
      url.components.fragment url).2.hosts r ↔ hostForest.IsRef q.2.hosts r := fun r =>
    KeyForest.isRef_map ((keepsHost_nodes _).at q.1).ref
  have hforest := hf.trees.forest.map ((keepsHost_nodes
    (addPath P scheme (portOf url) plq url.components.fragment url (q.2.nodes q.1)).2).at q.1).ref
  have hindexed : ∀ x, (q.2.addPath P scheme (portOf url) q.1 plq
      url.components.fragment url).2.Indexed x ↔ q.2.Indexed x := fun _ => Iff.rfl
  refine ⟨q.1, hf.name, ?_⟩
  constructor
  case trees =>
    exact ⟨hforest, hf.trees.sorted, fun i h hh => (hhosts h).2 (hf.trees.isHost i h hh), hf.trees.filed⟩
  case paths =>
    intro h
    rw [hnodes]
    split
    · exact ha.tree
    · rw [hold]
      exact hpaths h
  case host => exact (hhosts q.1).2 hf.isRef
  case indexed =>
    intro x
    rw [hindexed, hf.indexed, haddr]
    rfl
  case hosts => exact fun r hr => (hhosts r).2 (hr.mono hf.sub)
  case newHosts =>
    intro r hr
    rcases (hhosts r).1 hr with rfl | ⟨e, he, rfl⟩
    · exact Or.inl (Or.inl rfl)
    · rcases hf.created e he with he | ⟨part, parent, -, hsuf⟩
      · exact Or.inl (Or.inr ⟨e, he, rfl⟩)
      · rw [hf.name]
        exact Or.inr hsuf
  case isRef =>
    rw [hnodes, if_pos rfl]
    exact ha.isRef
  case nodes =>
    intro h' d' hd'
    rw [hnodes]
    split
    · next hh =>
      subst hh
      rw [← hold] at hd'
      exact ha.sub d' hd'
    · rw [hold]
      exact hd'
  case newNodes =>
    intro h' d' hd'
    rw [hnodes] at hd'
    split at hd'
    · next hh =>
      subst hh
      rcases hway d' hd' with hd' | hsuf
      · rw [hold] at hd'
        exact Or.inl hd'
      · exact Or.inr ⟨rfl, hsuf⟩
    · rw [hold] at hd'
      exact Or.inl hd'
  case url =>
    refine hurl.congr (fun place w => ?_) fun _ _ => Iff.rfl
    unfold Db.HasUrl
    rw [hold]

/-! ## Any additions -/

/-- `urldb_add_url` for one URL after another. -/
def addUrls (P : Platform) (us : List Nsurl) (db : Db) : Db := us.foldl (fun db u => (addUrl P u db).1) db

/-- One of the URLs has the host `r`, and when it is an address no URL before it has a host that ends
in it. -/
def HostFirst (P : Platform) (us : List Nsurl) (r : HostRef) : Prop :=
  ∃ us₁ u us₂ d, us = us₁ ++ u :: us₂ ∧ placeOf P u = some (r, d) ∧
    (AddressUrl P u → ∀ v ∈ us₁, ∀ place, placeOf P v = some place → ¬ r <:+ place.1)

/-- The database after the URLs are added to an empty one. -/
structure AddedInv (P : Platform) (us : List Nsurl) (db : Db) : Prop where
  trees : HostTrees P db
  paths : ∀ h, PathTree (db.nodes h)
  hosts : ∀ h, hostForest.IsRef db.hosts h → h = [] ∨
    ∃ u ∈ us, ∃ place, placeOf P u = some place ∧ lowerRef h <:+ place.1
  indexed : ∀ h, db.Indexed h ↔ hostForest.IsRef db.hosts h ∧ HostFirst P us (lowerRef h)
  nodes : ∀ h d, pathForest.IsRef (db.nodes h) d → d = [] ∨
    ∃ u ∈ us, ∃ d', placeOf P u = some (lowerRef h, d') ∧ d <:+ d'
  added : ∀ u ∈ us, ∀ place, placeOf P u = some place → ∃ h, lowerRef h = place.1 ∧
    hostForest.IsRef db.hosts h ∧ pathForest.IsRef (db.nodes h) place.2 ∧ ∃ w, db.HasUrl (h, place.2) w
  urls : ∀ h d w, db.HasUrl (h, d) w →
    ∃ u ∈ us, placeOf P u = some (lowerRef h, d) ∧ Nsurl.defragment P u = w

theorem HostFirst.append {us : List Nsurl} {r : HostRef} (h : HostFirst P us r) (u : Nsurl) :
    HostFirst P (us ++ [u]) r := by
  obtain ⟨us₁, v, us₂, d, rfl, hplace, hfirst⟩ := h
  exact ⟨us₁, v, us₂ ++ [u], d, by simp, hplace, hfirst⟩

theorem HostFirst.of_append {us : List Nsurl} {u : Nsurl} {r : HostRef}
    (h : HostFirst P (us ++ [u]) r) : HostFirst P us r ∨ ∃ d, placeOf P u = some (r, d) ∧
      (AddressUrl P u → ∀ v ∈ us, ∀ place, placeOf P v = some place → ¬ r <:+ place.1) := by
  obtain ⟨us₁, v, us₂, d, heq, hplace, hfirst⟩ := h
  rcases eq_nil_or_concat us₂ with rfl | ⟨us₂, v', rfl⟩
  · obtain ⟨rfl, hv⟩ := append_inj' heq rfl
    obtain rfl := singleton_inj.1 hv
    exact Or.inr ⟨d, hplace, hfirst⟩
  · rw [concat_eq_append, ← cons_append, ← append_assoc] at heq
    obtain ⟨rfl, -⟩ := append_inj' heq rfl
    exact Or.inl ⟨us₁, v, us₂, d, rfl, hplace, hfirst⟩

theorem addedInv_empty : AddedInv P [] Db.empty where
  trees :=
    { forest := KeyForest.wellFormed_nil
      sorted := fun _ => List.Pairwise.nil
      isHost := fun _ _ h => absurd h not_mem_nil
      filed := fun _ _ h => absurd h not_mem_nil }
  paths _ := pathTree_nil
  hosts h hh := Or.inl (hh.resolve_right fun ⟨_, he, _⟩ => absurd he not_mem_nil)
  indexed h := by
    constructor
    · rintro ⟨_, hh⟩
      exact absurd hh not_mem_nil
    · rintro ⟨-, us₁, u, us₂, -, heq, -⟩
      exact absurd heq.symm (append_ne_nil_of_right_ne_nil _ (cons_ne_nil _ _))
  nodes h d hd := Or.inl (hd.resolve_right fun ⟨_, hp, _⟩ => absurd hp not_mem_nil)
  added u hu := absurd hu not_mem_nil
  urls h d w := by
    rintro ⟨_, hp, -⟩
    exact absurd hp not_mem_nil

theorem AddedInv.isRef_iff {us : List Nsurl} (hi : AddedInv P us db) (hnew : h ≠ [])
    (hwf : hostForest.WellFormed db'.hosts) (hh : hostForest.IsRef db'.hosts h)
    (hsub : ∀ r, hostForest.IsRef db.hosts r → hostForest.IsRef db'.hosts r) :
    hostForest.IsRef db.hosts h ↔ ∃ v ∈ us, ∃ place, placeOf P v = some place ∧ lowerRef h <:+ place.1 := by
  constructor
  · exact fun hold => (hi.hosts h hold).resolve_left hnew
  · rintro ⟨v, hv, place, hplace, hsuf⟩
    obtain ⟨h', hname, href, -⟩ := hi.added v hv place hplace
    have hdrop := hi.trees.forest.isRef_drop href (h'.length - h.length)
    have hlow : lowerRef (h'.drop (h'.length - h.length)) = lowerRef h := by
      rw [← hname] at hsuf
      rw [lowerRef, KeyForest.normRef, map_drop, ← KeyForest.normRef]
      rw [suffix_iff_eq_drop] at hsuf
      simpa [KeyForest.normRef] using hsuf.symm
    rwa [hwf.ref_eq_of_normRef (hsub _ hdrop) hh hlow] at hdrop

theorem addUrl_addedInv (hP : P.Caseless) {us : List Nsurl} (hi : AddedInv P us db) (u : Nsurl) :
    AddedInv P (us ++ [u]) (addUrl P u db).1 := by
  cases hplace : placeOf P u with
  | none =>
    rw [addUrl_of_placeOf_none hplace]
    have hfirst : ∀ r, HostFirst P (us ++ [u]) r ↔ HostFirst P us r := by
      refine fun r => ⟨fun hr => hr.of_append.resolve_right ?_, fun hr => hr.append u⟩
      rintro ⟨d, hd, -⟩
      rw [hplace] at hd
      cases hd
    constructor
    case trees => exact ⟨hi.trees.forest, hi.trees.sorted, hi.trees.isHost, hi.trees.filed⟩
    case paths => exact hi.paths
    case hosts =>
      intro h hh
      refine (hi.hosts h hh).imp id ?_
      rintro ⟨v, hv, hp⟩
      exact ⟨v, mem_append_left _ hv, hp⟩
    case indexed =>
      intro h
      rw [hfirst]
      exact hi.indexed h
    case nodes =>
      intro h d hd
      refine (hi.nodes h d hd).imp id ?_
      rintro ⟨v, hv, hp⟩
      exact ⟨v, mem_append_left _ hv, hp⟩
    case added =>
      intro v hv place hp
      rcases mem_append.1 hv with hv | hv
      · exact hi.added v hv place hp
      · rw [mem_singleton.1 hv, hplace] at hp
        cases hp
    case urls =>
      intro h d w hw
      obtain ⟨v, hv, hp⟩ := hi.urls h d w hw
      exact ⟨v, mem_append_left _ hv, hp⟩
  | some place =>
    obtain ⟨r, d⟩ := place
    obtain ⟨h, rfl, ha⟩ := addUrl_place hP hi.trees hi.paths hplace
    generalize (addUrl P u db).1 = db' at ha ⊢
    have hu : u ∈ us ++ [u] := mem_append_right _ (mem_singleton_self u)
    have hne : h ≠ [] := by
      rintro rfl
      obtain ⟨_, host, _, -, -, -, hname, -⟩ := placeOf_eq_some hplace
      exact storedKey_ne_nil P host hname
    have hthere := hi.isRef_iff hne ha.trees.forest ha.host ha.hosts
    constructor
    case trees => exact ha.trees
    case paths => exact ha.paths
    case hosts =>
      intro x hx
      rcases ha.newHosts x hx with hx | hsuf
      · refine (hi.hosts x hx).imp id ?_
        rintro ⟨v, hv, hp⟩
        exact ⟨v, mem_append_left _ hv, hp⟩
      · exact Or.inr ⟨u, hu, _, hplace, hsuf⟩
    case indexed =>
      intro x
      rw [ha.indexed, hi.indexed]
      constructor
      · rintro (⟨hx, hfirst⟩ | ⟨rfl, hnew⟩)
        · exact ⟨ha.hosts x hx, hfirst.append u⟩
        · refine ⟨ha.host, us, u, [], d, rfl, hplace, fun haddr v hv place hp hsuf => ?_⟩
          exact hnew haddr (hthere.2 ⟨v, hv, place, hp, hsuf⟩)
      · rintro ⟨hx, hfirst⟩
        rcases hfirst.of_append with hfirst | ⟨d', hp, hnew⟩
        · left
          refine ⟨?_, hfirst⟩
          obtain ⟨us₁, v, us₂, d', rfl, hp, -⟩ := hfirst
          obtain ⟨h', hname, href, -⟩ := hi.added v (by simp) _ hp
          rwa [ha.trees.forest.ref_eq_of_normRef (ha.hosts h' href) hx hname] at href
        · obtain ⟨hname, -⟩ := Prod.mk.inj (Option.some.inj (hplace.symm.trans hp))
          obtain rfl := ha.trees.forest.ref_eq_of_normRef ha.host hx hname
          refine Or.inr ⟨rfl, fun haddr hold => ?_⟩
          obtain ⟨v, hv, place, hp', hsuf⟩ := hthere.1 hold
          exact hnew haddr v hv place hp' hsuf
    case nodes =>
      intro x d' hd'
      rcases ha.newNodes x d' hd' with hd' | ⟨rfl, hsuf⟩
      · refine (hi.nodes x d' hd').imp id ?_
        rintro ⟨v, hv, hp⟩
        exact ⟨v, mem_append_left _ hv, hp⟩
      · exact Or.inr ⟨u, hu, d, hplace, hsuf⟩
    case added =>
      intro v hv place hp
      rcases mem_append.1 hv with hv | hv
      · obtain ⟨h', hname, hh', hd', w, hw⟩ := hi.added v hv place hp
        exact ⟨h', hname, ha.hosts h' hh', ha.nodes h' _ hd', w, ha.url.keeps _ _ hw⟩
      · rw [mem_singleton.1 hv, hplace] at hp
        cases hp
        exact ⟨h, rfl, ha.host, ha.isRef, ha.url.there⟩
    case urls =>
      intro x d' w hw
      rcases ha.url.new _ w hw with hold | ⟨hxd, rfl, -⟩
      · obtain ⟨v, hv, hp⟩ := hi.urls x d' w hold
        exact ⟨v, mem_append_left _ hv, hp⟩
      · cases hxd
        exact ⟨u, hu, hplace, rfl⟩

theorem addUrls_addedInv (hP : P.Caseless) (us : List Nsurl) : AddedInv P us (addUrls P us Db.empty) := by
  induction us using List.reverseRecOn with
  | nil => exact addedInv_empty
  | append_singleton us u ih =>
    have hadd : addUrls P (us ++ [u]) Db.empty = (addUrl P u (addUrls P us Db.empty)).1 := by
      unfold addUrls
      rw [foldl_append]
      rfl
    rw [hadd]
    exact addUrl_addedInv hP ih u

/-! ## Iterating over what was added -/

theorem AddedInv.place_unique {us : List Nsurl} (hi : AddedInv P us db) {h' : HostRef} {d' : PathRef}
    (hh : hostForest.IsRef db.hosts h) (hh' : hostForest.IsRef db.hosts h') (hw : db.HasUrl (h, d) w)
    (hw' : db.HasUrl (h', d') w) : h = h' ∧ d = d' := by
  obtain ⟨u, -, hplace, hu⟩ := hi.urls h d w hw
  obtain ⟨v, -, hplace', hv⟩ := hi.urls h' d' w hw'
  rw [← placeOf_defragment, hu] at hplace
  rw [← placeOf_defragment, hv, hplace] at hplace'
  obtain ⟨hname, hd⟩ := Prod.mk.inj (Option.some.inj hplace')
  exact ⟨hi.trees.forest.ref_eq_of_normRef hh hh' hname, hd⟩

theorem AddedInv.isLeaf_iff {us : List Nsurl} (hi : AddedInv P us db)
    (hh : hostForest.IsRef db.hosts h) {u : Nsurl} (hu : u ∈ us)
    (hplace : placeOf P u = some (lowerRef h, d)) :
    IsLeaf (db.nodes h) d ↔ ∀ v ∈ us, ∀ d', placeOf P v = some (lowerRef h, d') → d <:+ d' → d' = d := by
  have htree := (hi.paths h).isTree
  have hnode : ∀ v ∈ us, ∀ d', placeOf P v = some (lowerRef h, d') → ∃ p ∈ db.nodes h, p.ref = d' := by
    intro v hv d' hp
    obtain ⟨h', hname, hh', hd', -⟩ := hi.added v hv _ hp
    obtain rfl := hi.trees.forest.ref_eq_of_normRef hh' hh hname
    obtain ⟨_, host, plq, -, -, -, -, hchain⟩ := placeOf_eq_some hp
    refine hd'.resolve_left ?_
    rintro rfl
    exact chain_ne_nil (segments_ne_nil _) hchain
  constructor
  · rintro ⟨-, hk⟩ v hv d' hp hsuf
    by_contra hne
    -- the node below, on the way to the other URL
    obtain ⟨t, rfl⟩ := hsuf
    have ht : t ≠ [] := by
      rintro rfl
      exact hne rfl
    obtain ⟨k, hkmem⟩ : ∃ k, k ∈ kids (db.nodes h) d := by
      refine ⟨t.getLast ht, mem_kids.2 ?_⟩
      refine htree.of_suffix (hnode v hv _ hp) ?_ (cons_ne_nil _ _)
      refine ⟨t.dropLast, ?_⟩
      rw [← singleton_append, ← append_assoc, dropLast_append_getLast]
    rw [hk] at hkmem
    cases hkmem
  · intro hbelow
    refine ⟨hnode u hu d hplace, eq_nil_iff_forall_not_mem.2 fun k hk => ?_⟩
    obtain ⟨v, hv, d', hp, hsuf⟩ := (hi.nodes h (k :: d) (Or.inr (mem_kids.1 hk))).resolve_left (cons_ne_nil _ _)
    have heq := hbelow v hv d' hp ((suffix_cons k d).trans hsuf)
    rw [heq] at hsuf
    have hlen := hsuf.length_le
    rw [length_cons] at hlen
    omega

theorem AddedInv.leaf_url {us : List Nsurl} (hi : AddedInv P us db)
    (hh : hostForest.IsRef db.hosts h) (hd : IsLeaf (db.nodes h) d) : ∃ w, HasUrl (db.nodes h) d w := by
  obtain ⟨⟨p, hp, href⟩, hk⟩ := hd
  have hne : d ≠ [] := by
    rintro rfl
    cases href
  obtain ⟨u, hu, d', hplace, hsuf⟩ := (hi.nodes h d (Or.inr ⟨p, hp, href⟩)).resolve_left hne
  obtain ⟨h', hname, hh', hd', w, hw⟩ := hi.added u hu _ hplace
  obtain rfl := hi.trees.forest.ref_eq_of_normRef hh' hh hname
  obtain ⟨t, rfl⟩ := hsuf
  rcases eq_nil_or_concat t with rfl | ⟨t, k, rfl⟩
  · exact ⟨w, hw⟩
  · have hkid : k ∈ kids (db.nodes h') d := by
      refine mem_kids.2 ((hi.paths h').isTree.of_suffix (hd'.resolve_left ?_) ⟨t, ?_⟩ (cons_ne_nil _ _))
      · simp
      · simp
    rw [hk] at hkid
    cases hkid

theorem kids_root_ne_nil (h : PathTree nodes) (hd : ∃ p ∈ nodes, p.ref = d) : kids nodes [] ≠ [] := by
  have hne : d ≠ [] := by
    obtain ⟨p, -, rfl⟩ := hd
    exact cons_ne_nil _ _
  have hkid : d.getLast hne ∈ kids nodes [] := by
    refine mem_kids.2 (h.isTree.of_suffix hd ⟨d.dropLast, ?_⟩ (cons_ne_nil _ _))
    exact dropLast_append_getLast hne
  exact ne_nil_of_mem hkid

theorem AddedInv.iterateEntriesHost {us : List Nsurl} (hi : AddedInv P us db) (hh : hostForest.IsRef db.hosts h) :
    ∃ calls, iterateEntriesHost (fun _ => true) db h = some (calls, true) ∧ calls.Nodup ∧
      ∀ w, w ∈ calls ↔ ∃ d, IsLeaf (db.nodes h) d ∧ HasUrl (db.nodes h) d w := by
  unfold Urldb.iterateEntriesHost
  split
  · next hk =>
    exact iterateEntriesPath_spec (hi.paths h) hk (fun d hd => hi.leaf_url hh hd)
      fun d d' w hw hw' => (hi.place_unique hh hh hw hw').2
  · next hk =>
    refine ⟨[], rfl, nodup_nil, fun w => ?_⟩
    constructor
    · exact fun h => absurd h not_mem_nil
    · rintro ⟨d, hd, -⟩
      exact absurd (kids_root_ne_nil (hi.paths h) hd.1) hk

theorem AddedInv.nodup_tree {us : List Nsurl} (hi : AddedInv P us db) (i : Fin 28) :
    (db.searchTrees i).toList.Nodup := by
  refine (hi.trees.sorted i).imp ?_
  rintro h _ hlt rfl
  rw [searchMatchHost_eq_iff.2 rfl] at hlt
  cases hlt

theorem AddedInv.callEach_hosts {us : List Nsurl} (hi : AddedInv P us db) {hosts : List HostRef}
    (hnd : hosts.Nodup) (hhosts : ∀ h ∈ hosts, hostForest.IsRef db.hosts h) :
    ∃ calls, callEach (Urldb.iterateEntriesHost (fun _ => true) db) hosts = some (calls, true) ∧ calls.Nodup ∧
      ∀ w, w ∈ calls ↔ ∃ h ∈ hosts, ∃ d, IsLeaf (db.nodes h) d ∧ HasUrl (db.nodes h) d w := by
  refine exists_callEach hnd (fun h hh => hi.iterateEntriesHost (hhosts h hh)) ?_
  rintro h hh h' hh' w ⟨d, -, hw⟩ ⟨d', -, hw'⟩
  exact (hi.place_unique (hhosts h hh) (hhosts h' hh') hw hw').1

theorem AddedInv.iterateEntries {us : List Nsurl} (hi : AddedInv P us db) :
    ∃ calls, iterateEntries (fun _ => true) db = some (calls, true) ∧ calls.Nodup ∧
      ∀ w, w ∈ calls ↔ ∃ h d, db.Indexed h ∧ IsLeaf (db.nodes h) d ∧ db.HasUrl (h, d) w := by
  obtain ⟨calls, hcalls, hnd, hmem⟩ := exists_callEach (nodup_finRange 28)
    (fun i _ => hi.callEach_hosts (hi.nodup_tree i) (hi.trees.isHost i)) (by
    rintro i - i' - w ⟨h, hh, d, -, hw⟩ ⟨h', hh', d', -, hw'⟩
    obtain ⟨rfl, -⟩ := hi.place_unique (hi.trees.isHost i h hh) (hi.trees.isHost i' h' hh') hw hw'
    rw [hi.trees.filed i h hh, ← hi.trees.filed i' h hh'])
  refine ⟨calls, hcalls, hnd, fun w => ?_⟩
  rw [hmem]
  constructor
  · rintro ⟨i, -, h, hh, d, hd, hw⟩
    exact ⟨h, d, ⟨i, hh⟩, hd, hw⟩
  · rintro ⟨h, d, ⟨i, hh⟩, hd, hw⟩
    exact ⟨i, mem_finRange i, h, hh, d, hd, hw⟩

/-- `urldb_iterate_entries` reports each URL that was added exactly when no URL is on the way to another,
the URLs of one place are one, and an address is added before a name that ends in it. -/
theorem iterateEntries_complete_iff (hP : P.Caseless) (us : List Nsurl) :
    (∃ calls, iterateEntries (fun _ => true) (addUrls P us Db.empty) = some (calls, true) ∧
      calls.Nodup ∧ ∀ w, w ∈ calls ↔ ∃ u ∈ us, placeOf P u ≠ none ∧ Nsurl.defragment P u = w) ↔
    ∀ u ∈ us, ∀ r d, placeOf P u = some (r, d) → HostFirst P us r ∧
      (∀ v ∈ us, ∀ d', placeOf P v = some (r, d') → d <:+ d' → d' = d) ∧
      ∀ v ∈ us, placeOf P v = some (r, d) → Nsurl.defragment P v = Nsurl.defragment P u := by
  have hi := addUrls_addedInv hP us
  generalize addUrls P us Db.empty = db at hi ⊢
  obtain ⟨calls, hcalls, hnd, hmem⟩ := hi.iterateEntries
  constructor
  · rintro ⟨calls', hcalls', -, hmem'⟩ u hu r d hplace
    obtain ⟨rfl, -⟩ := Prod.mk.inj (Option.some.inj (hcalls.symm.trans hcalls'))
    have hreported : ∀ v ∈ us, placeOf P v = some (r, d) → ∃ h, db.Indexed h ∧
        IsLeaf (db.nodes h) d ∧ lowerRef h = r ∧ db.HasUrl (h, d) (Nsurl.defragment P v) := by
      intro v hv hp
      obtain ⟨h, d', hidx, hleaf, hw⟩ := (hmem _).1 ((hmem' (Nsurl.defragment P v)).2
        ⟨v, hv, by rw [hp]; exact Option.some_ne_none _, rfl⟩)
      obtain ⟨v', -, hp', hv'⟩ := hi.urls h d' _ hw
      rw [← placeOf_defragment, hv', placeOf_defragment, hp] at hp'
      cases hp'
      exact ⟨h, hidx, hleaf, rfl, hw⟩
    obtain ⟨h, hidx, hleaf, rfl, hw⟩ := hreported u hu hplace
    obtain ⟨hh, hfirst⟩ := (hi.indexed h).1 hidx
    refine ⟨hfirst, (hi.isLeaf_iff hh hu hplace).1 hleaf, fun v hv hp => ?_⟩
    obtain ⟨h', hidx', -, hname, hw'⟩ := hreported v hv hp
    obtain rfl := hi.trees.forest.ref_eq_of_normRef ((hi.indexed h').1 hidx').1 hh hname
    exact HasUrl.unique (hi.paths h') hw' hw
  · intro hcond
    refine ⟨calls, hcalls, hnd, fun w => ?_⟩
    rw [hmem]
    constructor
    · rintro ⟨h, d, -, -, hw⟩
      obtain ⟨u, hu, hplace, rfl⟩ := hi.urls h d w hw
      exact ⟨u, hu, by rw [hplace]; exact Option.some_ne_none _, rfl⟩
    · rintro ⟨u, hu, hne, rfl⟩
      obtain ⟨⟨r, d⟩, hplace⟩ := Option.ne_none_iff_exists'.1 hne
      obtain ⟨hfirst, hbelow, hsame⟩ := hcond u hu r d hplace
      obtain ⟨h, rfl, hh, -, w', hw'⟩ := hi.added u hu _ hplace
      obtain ⟨v, hv, hp, rfl⟩ := hi.urls h d w' hw'
      rw [hsame v hv hp] at hw'
      exact ⟨h, d, (hi.indexed h).2 ⟨hh, hfirst⟩, (hi.isLeaf_iff hh hu hplace).2 hbelow, hw'⟩

theorem iterateEntries_complete_two : ∃ u v calls, u ≠ v ∧
    iterateEntries (fun _ => true) (addUrls .plain [u, v] Db.empty) = some (calls, true) ∧
      u ∈ calls ∧ v ∈ calls := by
  obtain ⟨u, -, hs⟩ := Nsurl.exists_ok_of_any
    (x := Nsurl.create .plain (fun _ => 0) (str "http://h.co/a"))
    (p := fun u => (Nsurl.create .plain (fun _ => 0) (str "http://h.co/b")).toOption.any fun v =>
      placeOf .plain u == some ([str "h", str "co"], chain (str "http") 0 [str "a"]) &&
        placeOf .plain v == some ([str "h", str "co"], chain (str "http") 0 [str "b"]) &&
        hostStrOf u == some (str "h.co") && hostStrOf v == some (str "h.co") &&
        Nsurl.defragment .plain u == u && Nsurl.defragment .plain v == v) (by decide +kernel)
  obtain ⟨v, -, ht⟩ := exists_some_of_any hs
  simp only [Bool.and_eq_true, beq_iff_eq] at ht
  obtain ⟨⟨⟨⟨⟨hu, hv⟩, hhu⟩, hhv⟩, hdu⟩, hdv⟩ := ht
  have haddr : ¬ hostIsIpAddress .plain (str "h.co") = true := by decide +kernel
  have hcond := (iterateEntries_complete_iff Platform.plain_caseless [u, v]).2 (by
    intro x hx r d hplace
    simp only [mem_cons, not_mem_nil, or_false] at hx
    have hnot : ¬ AddressUrl .plain x := by
      rintro ⟨host, hhost, hip⟩
      rcases hx with rfl | rfl
      · rw [← Option.some.inj (hhu.symm.trans hhost)] at hip
        exact haddr hip
      · rw [← Option.some.inj (hhv.symm.trans hhost)] at hip
        exact haddr hip
    refine ⟨?_, ?_, ?_⟩
    · rcases hx with rfl | rfl
      · exact ⟨[], x, [v], d, rfl, hplace, fun h => absurd h hnot⟩
      · exact ⟨[u], x, [], d, rfl, hplace, fun h => absurd h hnot⟩
    · intro y hy d' hplace' hsuf
      simp only [mem_cons, not_mem_nil, or_false] at hy
      rcases hx with rfl | rfl <;> rcases hy with rfl | rfl
      · exact (Prod.mk.inj (Option.some.inj (hplace'.symm.trans hplace))).2
      · obtain ⟨-, rfl⟩ := Prod.mk.inj (Option.some.inj (hu.symm.trans hplace))
        obtain ⟨-, rfl⟩ := Prod.mk.inj (Option.some.inj (hv.symm.trans hplace'))
        exact absurd hsuf (by decide)
      · obtain ⟨-, rfl⟩ := Prod.mk.inj (Option.some.inj (hv.symm.trans hplace))
        obtain ⟨-, rfl⟩ := Prod.mk.inj (Option.some.inj (hu.symm.trans hplace'))
        exact absurd hsuf (by decide)
      · exact (Prod.mk.inj (Option.some.inj (hplace'.symm.trans hplace))).2
    · intro y hy hplace'
      simp only [mem_cons, not_mem_nil, or_false] at hy
      rcases hx with rfl | rfl <;> rcases hy with rfl | rfl
      · rfl
      · exact absurd (hu.symm.trans (hplace.trans (hplace'.symm.trans hv))) (by decide)
      · exact absurd (hv.symm.trans (hplace.trans (hplace'.symm.trans hu))) (by decide)
      · rfl)
  obtain ⟨calls, hcalls, -, hmem⟩ := hcond
  refine ⟨u, v, calls, ?_, hcalls, (hmem u).2 ⟨u, mem_cons_self, ?_, hdu⟩,
    (hmem v).2 ⟨v, mem_cons_of_mem _ (mem_singleton_self v), ?_, hdv⟩⟩
  · rintro rfl
    rw [hu] at hv
    revert hv
    decide
  · rw [hu]
    exact Option.some_ne_none _
  · rw [hv]
    exact Option.some_ne_none _

/-- A page is not reported once a page below it is added. -/
theorem iterateEntries_ancestor : ¬ ∀ us : List Nsurl,
    (∀ u ∈ us, u.components.scheme ∈ [some (str "http"), some (str "https"), some (str "ftp")]) →
    ∃ calls, iterateEntries (fun _ => true) (addUrls .plain us Db.empty) = some (calls, true) ∧
      calls.Nodup ∧ ∀ w, w ∈ calls ↔ ∃ u ∈ us, placeOf .plain u ≠ none ∧
        Nsurl.defragment .plain u = w := by
  intro h
  obtain ⟨u, -, hs⟩ := Nsurl.exists_ok_of_any
    (x := Nsurl.create .plain (fun _ => 0) (str "http://h.co/a"))
    (p := fun u => (Nsurl.create .plain (fun _ => 0) (str "http://h.co/a/b")).toOption.any fun v =>
      u.components.scheme == some (str "http") && v.components.scheme == some (str "http") &&
        (placeOf .plain u).isSome && (iterateEntries (fun _ => true)
          (addUrls .plain [u, v] Db.empty)).all fun r => !r.1.contains (Nsurl.defragment .plain u))
    (by decide +kernel)
  obtain ⟨v, -, ht⟩ := exists_some_of_any hs
  simp only [Bool.and_eq_true, beq_iff_eq] at ht
  obtain ⟨⟨⟨hu, hv⟩, hplace⟩, hrun⟩ := ht
  obtain ⟨calls, hcalls, -, hmem⟩ := h [u, v] (by simp [hu, hv])
  rw [hcalls, Option.all_some, Bool.not_eq_true', contains_eq_mem, decide_eq_false_iff_not] at hrun
  exact hrun ((hmem _).2 ⟨u, mem_cons_self, Option.isSome_iff_ne_none.1 hplace, rfl⟩)

end Nami.Urldb
