import Nami.Urldb.Path

/-!
# The path tree of a host

`PathTree` is what the path nodes of a host satisfy: they form a tree, and siblings are in the order of
their segments. `addPath_spec` is what `urldb_add_path` does to it. `urldb_match_path` walks down by the
first sibling whose segment starts with the one wanted. Because of the order this is the wanted one
if it is there (`matchSegments_of_isRef`), and without it some longer one, unless there is none
(`matchSegments_exact`).
-/

namespace Nami.Urldb

open List

variable {nodes : List PathData} {d : PathRef} {scheme : Bytes} {port : UInt32}

/-- One sibling may stand before another. -/
def segmentLe (a b : PathData) : Prop := strcmp a.key.segment b.key.segment ≠ .gt

structure PathTree (nodes : List PathData) : Prop where
  forest : pathForest.WellFormed nodes
  sorted : ∀ d, (children nodes d).Pairwise segmentLe

theorem pathTree_nil : PathTree [] := ⟨KeyForest.wellFormed_nil, fun _ => List.Pairwise.nil⟩

theorem mem_children {q : PathData} : q ∈ children nodes d ↔ q ∈ nodes ∧ q.parent = d := by
  simp [children]

/-! ## Additions -/

theorem strcmp_trans {a b c : Bytes} (hab : strcmp a b ≠ .gt) (hbc : strcmp b c ≠ .gt) : strcmp a c ≠ .gt := by
  have htrans : (compare a c).isLE :=
    Std.TransOrd.isLE_trans (Ordering.isLE_iff_ne_gt.2 hab) (Ordering.isLE_iff_ne_gt.2 hbc)
  exact Ordering.isLE_iff_ne_gt.1 htrans

theorem strcmp_of_gt {a b : Bytes} (h : strcmp a b = .gt) : strcmp b a ≠ .gt := by
  have : compare b a = .lt := Std.OrientedCmp.lt_of_gt h
  rw [strcmp, this]
  decide

theorem sorted_addPathNode (hs : ∀ d, (children nodes d).Pairwise segmentLe) (x : PathData)
    (d : PathRef) : (children (addPathNode x nodes) d).Pairwise segmentLe := by
  simp only [addPathNode]
  generalize hp : (fun e : PathData =>
    !(e.parent = x.parent && strcmp e.key.segment x.key.segment == .gt)) = before
  have hb : ∀ e : PathData, before e = true ↔ (e.parent = x.parent → strcmp e.key.segment x.key.segment ≠ .gt) := by
    intro e
    subst hp
    simp [imp_iff_not_or]
  have hsd := hs d
  rw [← takeWhile_append_dropWhile (p := before) (l := nodes)] at hsd
  simp only [children, filter_append, filter_cons] at hsd ⊢
  split
  · next hx =>
    obtain rfl : x.parent = d := of_decide_eq_true hx
    obtain ⟨hl, hr, hlr⟩ := pairwise_append.1 hsd
    have hbefore : ∀ a ∈ nodes.takeWhile before |>.filter (·.parent = x.parent), segmentLe a x := by
      intro a ha
      obtain ⟨ha, hpar⟩ := mem_filter.1 ha
      exact (hb a).1 (mem_takeWhile_imp ha) (of_decide_eq_true hpar)
    have hafter : ∀ b ∈ nodes.dropWhile before |>.filter (·.parent = x.parent), segmentLe x b := by
      -- the first node that is not before the new one is a sibling above it
      cases hdrop : nodes.dropWhile before with
      | nil => simp
      | cons y rest =>
        have hy : before y = false := by
          have := head_dropWhile_not before (l := nodes) (by rw [hdrop]; exact nofun)
          simpa [hdrop] using this
        have hy' : y.parent = x.parent ∧ strcmp y.key.segment x.key.segment = .gt := by
          by_contra hne
          rw [(hb y).2 fun hpar hgt => hne ⟨hpar, hgt⟩] at hy
          cases hy
        rw [hdrop] at hr
        simp only [filter_cons, hy'.1, decide_true, if_true, pairwise_cons] at hr
        intro b hb'
        simp only [filter_cons, hy'.1, decide_true, if_true, mem_cons] at hb'
        have hxy : segmentLe x y := strcmp_of_gt hy'.2
        rcases hb' with rfl | hb'
        · exact hxy
        · exact strcmp_trans hxy (hr.1 b hb')
    refine pairwise_append.2 ⟨hl, pairwise_cons.2 ⟨hafter, hr⟩, ?_⟩
    intro a ha b hb'
    rcases mem_cons.1 hb' with rfl | hb'
    · exact hbefore a ha
    · exact hlr a ha b hb'
  · exact hsd

/-- A change to nodes that keeps their keys and places. -/
structure KeepsNode (f : PathData → PathData) : Prop where
  key : ∀ p, (f p).key = p.key
  parent : ∀ p, (f p).parent = p.parent

theorem KeepsNode.ref {f : PathData → PathData} (h : KeepsNode f) (p : PathData) : (f p).ref = p.ref := by
  simp only [PathData.ref, KeyForest.ref, pathForest, h.key, h.parent]

theorem KeepsNode.at {f : PathData → PathData} (h : KeepsNode f) (d : PathRef) :
    KeepsNode fun p => if p.ref = d then f p else p := by
  refine ⟨fun p => ?_, fun p => ?_⟩ <;> split
  · exact h.key p
  · rfl
  · exact h.parent p
  · rfl

theorem PathTree.map (h : PathTree nodes) {f : PathData → PathData} (hf : KeepsNode f) : PathTree (nodes.map f) where
  forest := h.forest.map hf.ref
  sorted d := by
    have hc : children (nodes.map f) d = (children nodes d).map f := by
      simp only [children, filter_map]
      congr 2
      funext p
      simp [hf.parent]
    rw [hc, pairwise_map]
    refine (h.sorted d).imp ?_
    intro a b hab
    simpa only [segmentLe, hf.key] using hab

theorem keepsNode_addPathFragment (fragment : Option Bytes) : KeepsNode (addPathFragment fragment) := by
  refine ⟨fun p => ?_, fun p => ?_⟩ <;> cases fragment <;> rfl

theorem keepsNode_setPathUrl (P : Platform) (url : Nsurl) : KeepsNode (setPathUrl P url) := by
  refine ⟨fun p => ?_, fun p => ?_⟩ <;> simp only [setPathUrl] <;> split <;> rfl

theorem keepsNode_cookies (g : List Cookie → List Cookie) :
    KeepsNode fun p => { p with cookies := g p.cookies } := ⟨fun _ => rfl, fun _ => rfl⟩

/-! ## The cookies of a node -/

/-- The cookies of the node `d`. -/
def nodeCookies (nodes : List PathData) (d : PathRef) : List Cookie :=
  (nodes.filter (·.ref = d)).flatMap (·.cookies)

theorem mem_nodeCookies {c : Cookie} : c ∈ nodeCookies nodes d ↔ ∃ q ∈ nodes, q.ref = d ∧ c ∈ q.cookies := by
  simp [nodeCookies, and_assoc]

theorem nodeCookies_map {f : PathData → PathData} (hf : KeepsNode f)
    (hc : ∀ p, (f p).cookies = p.cookies) : nodeCookies (nodes.map f) d = nodeCookies nodes d := by
  have hcomp : ((fun p : PathData => decide (p.ref = d)) ∘ f) = fun p => decide (p.ref = d) := by
    funext p
    simp only [Function.comp_apply, hf.ref]
  rw [nodeCookies, nodeCookies, filter_map, hcomp, flatMap_map]
  exact flatMap_congr fun p _ => hc p

theorem PathTree.filter_ref (h : PathTree nodes) {p : PathData} (hp : p ∈ nodes) :
    nodes.filter (·.ref = p.ref) = [p] := by
  have hnd : nodes.Nodup := List.Nodup.of_map _ h.forest.distinct
  have hall : ∀ q ∈ nodes.filter (·.ref = p.ref), q = p := by
    intro q hq
    obtain ⟨hq, href⟩ := mem_filter.1 hq
    exact h.forest.eq_of_normRef hq hp (congrArg _ (of_decide_eq_true href))
  have hmem : p ∈ nodes.filter (·.ref = p.ref) := mem_filter.2 ⟨hp, by simp⟩
  have hnd' := hnd.filter (·.ref = p.ref)
  revert hnd' hall hmem
  generalize nodes.filter (·.ref = p.ref) = l
  intro hall hmem hnd'
  cases l with
  | nil => cases hmem
  | cons a l =>
    have hl : l = [] := by
      refine eq_nil_iff_forall_not_mem.2 fun b hb => ?_
      rw [hall b (mem_cons_of_mem _ hb), ← hall a mem_cons_self] at hb
      exact (nodup_cons.1 hnd').1 hb
    rw [hl, hall a mem_cons_self]

theorem PathTree.nodeCookies_ref (h : PathTree nodes) {p : PathData} (hp : p ∈ nodes) :
    nodeCookies nodes p.ref = p.cookies := by
  rw [nodeCookies, h.filter_ref hp, flatMap_singleton]

theorem PathTree.nodeCookies_modifyPath (h : PathTree nodes) (hd : pathForest.IsRef nodes d)
    (hne : d ≠ []) (g : List Cookie → List Cookie) (d' : PathRef) :
    nodeCookies (modifyPath d (fun p => { p with cookies := g p.cookies }) nodes) d' =
      if d' = d then g (nodeCookies nodes d) else nodeCookies nodes d' := by
  obtain ⟨p, hp, hpd⟩ := hd.resolve_left hne
  obtain rfl : p.ref = d := hpd
  have hk' := (keepsNode_cookies g).at p.ref
  have h' : PathTree (modifyPath (p.ref) (fun p => { p with cookies := g p.cookies }) nodes) := h.map hk'
  by_cases hd' : d' = p.ref
  · subst hd'
    have hmem : { p with cookies := g p.cookies } ∈
        modifyPath (p.ref) (fun p => { p with cookies := g p.cookies }) nodes :=
      mem_map.2 ⟨p, hp, if_pos rfl⟩
    rw [if_pos rfl, h.nodeCookies_ref hp]
    exact h'.nodeCookies_ref hmem
  · rw [if_neg hd']
    have hcomp : (fun q : PathData => decide (q.ref = d')) ∘ (fun q => if q.ref = p.ref then
        { q with cookies := g q.cookies } else q) = fun q => decide (q.ref = d') := by
      funext q
      simp only [Function.comp_apply, hk'.ref]
    rw [nodeCookies, nodeCookies, modifyPath, filter_map, hcomp, flatMap_map]
    refine flatMap_congr fun q hq => ?_
    have hq : q.ref = d' := of_decide_eq_true (mem_filter.1 hq).2
    rw [if_neg (by rw [hq]; exact hd')]

/-! ## `urldb_add_path` -/

/-- The name of the node for these segments. -/
def chain (scheme : Bytes) (port : UInt32) (segs : List Bytes) : PathRef :=
  (segs.map fun segment => { segment, scheme, port }).reverse

theorem chain_append (a b : List Bytes) : chain scheme port (a ++ b) = chain scheme port b ++ chain scheme port a := by
  simp [chain]

theorem normRef_path (d : PathRef) : pathForest.normRef d = d := map_id' d

theorem nodeCookies_addPathNode {x : PathData} (hx : x.cookies = []) (d : PathRef) :
    nodeCookies (addPathNode x nodes) d = nodeCookies nodes d := by
  have hsplit := takeWhile_append_dropWhile (l := nodes)
    (p := fun e : PathData => !(e.parent = x.parent && strcmp e.key.segment x.key.segment == .gt))
  rw [addPathNode]
  conv_rhs => rw [← hsplit]
  simp only [nodeCookies, filter_append, flatMap_append, filter_cons]
  split
  · rw [flatMap_cons, hx, nil_append]
  · rfl

/-- What an addition to the path tree leads to: the node of the path is there, no node is lost, and no
cookie moves. -/
structure PathAdded (nodes : List PathData) (d : PathRef) (nodes' : List PathData) : Prop where
  tree : PathTree nodes'
  isRef : pathForest.IsRef nodes' d
  sub : ∀ d, pathForest.IsRef nodes d → pathForest.IsRef nodes' d
  cookies : ∀ d, nodeCookies nodes' d = nodeCookies nodes d

theorem addPath_spec (P : Platform) (scheme : Bytes) (port : UInt32) (path : Bytes)
    (fragment : Option Bytes) (url : Nsurl) (h : PathTree nodes) :
    (addPath P scheme port path fragment url nodes).1 = chain scheme port (segments (skipSlash path)) ∧
      PathAdded nodes (chain scheme port (segments (skipSlash path)))
        (addPath P scheme port path fragment url nodes).2 := by
  have hd := KeyForest.descend_spec (pathKeys scheme port path) h.forest (d := []) (Or.inl rfl)
  have hsorted : ∀ d, (children (pathForest.descend (pathKeys scheme port path) [] nodes).2 d).Pairwise
      segmentLe :=
    KeyForest.descend_induction (I := fun nodes => ∀ d, (children nodes d).Pairwise segmentLe) _
      h.sorted fun k d nodes hs d' => sorted_addPathNode hs _ d'
  have hcookies : ∀ d, nodeCookies (pathForest.descend (pathKeys scheme port path) [] nodes).2 d =
      nodeCookies nodes d :=
    KeyForest.descend_induction (I := fun l => ∀ d, nodeCookies l d = nodeCookies nodes d) _
      (fun _ => rfl) fun k d l hl d' => (nodeCookies_addPathNode rfl d').trans (hl d')
  simp only [addPath]
  generalize pathForest.descend (pathKeys scheme port path) [] nodes = r at hd hsorted hcookies ⊢
  obtain ⟨hwf, href, hname, hsub, -⟩ := hd
  rw [normRef_path, normRef_path, append_nil] at hname
  have hk₁ := (keepsNode_addPathFragment fragment).at r.1
  have hk₂ := (keepsNode_setPathUrl P url).at r.1
  have hrefs : ∀ d, pathForest.IsRef (modifyPath r.1 (setPathUrl P url)
      (modifyPath r.1 (addPathFragment fragment) r.2)) d ↔ pathForest.IsRef r.2 d := by
    intro d
    rw [modifyPath, modifyPath, KeyForest.isRef_map hk₂.ref, KeyForest.isRef_map hk₁.ref]
  refine ⟨hname, ⟨((PathTree.mk hwf hsorted).map hk₁).map hk₂, ?_, ?_, ?_⟩⟩
  · rw [hrefs, ← show r.1 = chain scheme port _ from hname]
    exact href
  · intro d hd
    rw [hrefs]
    exact hd.mono hsub
  · intro d
    rw [← hcookies d, modifyPath, modifyPath, nodeCookies_map hk₂, nodeCookies_map hk₁]
    · intro p
      split
      · cases fragment <;> rfl
      · rfl
    · intro p
      split
      · simp only [setPathUrl]
        split <;> rfl
      · rfl

/-! ## `urldb_match_path` -/

theorem strcmp_ne_gt_of_take {a s : Bytes} (h : a.take s.length = s) (hle : strcmp a s ≠ .gt) : a = s := by
  have hc := compare_take_then_length a s
  have hself : compare s s = .eq := strcmp_eq_iff.2 rfl
  have hlen : s.length ≤ a.length := by
    have := congrArg List.length h
    rw [length_take] at this
    omega
  by_cases hgt : a.length > s.length
  · rw [h, hself, Ordering.eq_then, if_pos hgt] at hc
    exact absurd hc.symm hle
  · rw [← h, take_of_length_le (by omega)]

theorem toUInt16_toUInt32 (h : port.toNat < 65536) : port.toUInt16.toUInt32 = port := by
  refine UInt32.toNat_inj.1 ?_
  rw [UInt16.toNat_toUInt32, UInt32.toNat_toUInt16]
  exact Nat.mod_eq_of_lt h

theorem matchNode_iff (hport : port.toNat < 65536) {segment : Bytes} {p : PathData} :
    matchNode segment scheme port.toUInt16 p = true ↔
      p.key.segment.take segment.length = segment ∧ p.key.scheme = scheme ∧ p.key.port = port := by
  simp only [matchNode, Bool.and_eq_true, beq_iff_eq, toUInt16_toUInt32 hport, and_assoc]

theorem PathTree.find_matchNode (h : PathTree nodes) (hport : port.toNat < 65536) {segment : Bytes}
    (href : pathForest.IsRef nodes ({ segment, scheme, port } :: d)) :
    ∃ p ∈ nodes, p.ref = { segment, scheme, port } :: d ∧
      (children nodes d).find? (matchNode segment scheme port.toUInt16) = some p := by
  obtain ⟨e, he, heref⟩ := href.resolve_left nofun
  obtain ⟨hkey, hpar⟩ := List.cons.inj heref
  have hmatch : matchNode segment scheme port.toUInt16 e = true := by
    rw [matchNode_iff hport, show e.key = _ from hkey]
    exact ⟨take_length, rfl, rfl⟩
  have hchild : e ∈ children nodes d := mem_children.2 ⟨he, hpar⟩
  cases hf : (children nodes d).find? (matchNode segment scheme port.toUInt16) with
  | none => exact absurd hmatch (List.find?_eq_none.1 hf e hchild)
  | some p =>
    obtain ⟨hp, before, after, hlist, hbefore⟩ := List.find?_eq_some_iff_append.1 hf
    have hsorted := h.sorted d
    rw [hlist] at hchild hsorted
    have hin : e ∈ p :: after := (mem_append.1 hchild).resolve_left fun hb => by
      have := hbefore e hb
      rw [hmatch] at this
      cases this
    suffices hpe : e = p by
      subst hpe
      exact ⟨e, he, heref, rfl⟩
    rcases mem_cons.1 hin with rfl | hafter
    · rfl
    · -- a node before the segment itself cannot be longer
      obtain ⟨htake, hscheme, hport'⟩ := (matchNode_iff hport).1 hp
      have hle : segmentLe p e := (pairwise_cons.1 (pairwise_append.1 hsorted).2.1).1 e hafter
      rw [segmentLe, show e.key.segment = segment from congrArg (·.segment) hkey] at hle
      have hseg : p.key.segment = segment := strcmp_ne_gt_of_take htake hle
      obtain ⟨hpmem, hppar⟩ := mem_children.1 (mem_of_find?_eq_some hf)
      refine h.forest.eq_of_normRef he hpmem (congrArg _ ?_)
      refine heref.trans (congrArg₂ List.cons ?_ hppar.symm)
      show _ = p.key
      rw [← hseg, ← hscheme, ← hport']

theorem PathTree.matchSegments_of_isRef (h : PathTree nodes) (hport : port.toNat < 65536)
    {segs : List Bytes} (hne : segs ≠ [])
    (href : pathForest.IsRef nodes (chain scheme port segs ++ d)) :
    ∃ p ∈ nodes, p.ref = chain scheme port segs ++ d ∧ matchSegments nodes scheme port.toUInt16 d segs = some p := by
  induction segs generalizing d with
  | nil => exact absurd rfl hne
  | cons segment rest ih =>
    have hsplit : chain scheme port (segment :: rest) ++ d =
        chain scheme port rest ++ { segment, scheme, port } :: d := by
      simp [chain]
    rw [hsplit] at href ⊢
    have hstep : pathForest.IsRef nodes ({ segment, scheme, port } :: d) := by
      have := h.forest.isRef_drop href (chain scheme port rest).length
      rwa [drop_left] at this
    obtain ⟨p, hp, hpref, hfind⟩ := h.find_matchNode hport hstep
    simp only [matchSegments, hfind]
    by_cases hrest : rest = []
    · subst hrest
      exact ⟨p, hp, hpref, if_pos rfl⟩
    · rw [if_neg hrest, hpref]
      exact ih hrest href

/-- Where the chain of a path leaves the tree, some sibling starts with the segment that is missing:
the lookup takes it for the segment. -/
def Shadowed (nodes : List PathData) (scheme : Bytes) (port : UInt32) (segs : List Bytes) : Prop :=
  ∃ before segment after, segs = before ++ segment :: after ∧
    pathForest.IsRef nodes (chain scheme port before) ∧
    ¬ pathForest.IsRef nodes (chain scheme port (before ++ [segment])) ∧
    ∃ p ∈ children nodes (chain scheme port before),
      segment <+: p.key.segment ∧ p.key.scheme = scheme ∧ p.key.port = port

theorem PathTree.matchSegments_exact (h : PathTree nodes) (hport : port.toNat < 65536)
    {segs : List Bytes} (hs : ¬ Shadowed nodes scheme port segs) {p : PathData}
    (hm : matchSegments nodes scheme port.toUInt16 [] segs = some p) :
    p ∈ nodes ∧ p.ref = chain scheme port segs := by
  suffices hgen : ∀ before rest, segs = before ++ rest → pathForest.IsRef nodes (chain scheme port before) →
      matchSegments nodes scheme port.toUInt16 (chain scheme port before) rest = some p →
      p ∈ nodes ∧ p.ref = chain scheme port segs from hgen [] segs rfl (Or.inl rfl) hm
  intro before rest
  induction rest generalizing before with
  | nil => exact fun _ _ hm => by cases hm
  | cons segment rest ih =>
    intro hsegs href hm
    have hchain : chain scheme port (before ++ [segment]) =
        { segment, scheme, port } :: chain scheme port before := chain_append before [segment]
    by_cases hstep : pathForest.IsRef nodes (chain scheme port (before ++ [segment]))
    · obtain ⟨q, hq, hqref, hfind⟩ := h.find_matchNode hport (hchain ▸ hstep)
      simp only [matchSegments, hfind] at hm
      by_cases hrest : rest = []
      · rw [if_pos hrest] at hm
        cases hm
        subst hrest
        exact ⟨hq, by rw [hsegs, hchain, hqref]⟩
      · rw [if_neg hrest, hqref, ← hchain] at hm
        exact ih (before ++ [segment]) (by simp [hsegs]) hstep hm
    · simp only [matchSegments] at hm
      cases hfind : (children nodes (chain scheme port before)).find? (matchNode segment scheme port.toUInt16) with
      | none => rw [hfind] at hm; cases hm
      | some q =>
        obtain ⟨htake, hscheme, hqport⟩ := (matchNode_iff hport).1 (List.find?_some hfind)
        refine absurd ⟨before, segment, rest, hsegs, href, hstep, q, mem_of_find?_eq_some hfind, ?_, hscheme, hqport⟩ hs
        exact prefix_iff_eq_take.2 htake.symm

end Nami.Urldb
