import Nami.Desktop.SaveComplete

/-!
# The references in a saved page

A run writes each content that it puts on the list, apart from pages in the page: those are on the list before
`save_complete_save_html` looks for them there, and nothing is written. The references are to what is on the list, so
they all have a file exactly if no page in the page gets on the list.
-/

namespace Nami.SaveComplete

open List
open Nsurl (bind_eq_ok)

variable {E : Env} {C : Cache} {list : List Handle} {base url : Nsurl} {h css obj c : Handle} {pieces : List Piece}
  {ctx ctx' ctx'' : Ctx} {ws us ws' us' : List Handle}

/-! ## The list -/

theorem findContent_isSome : (findContent C list url).isSome = true ↔ ∃ h ∈ list, url.key = (C.url h).key := by
  unfold findContent
  rw [List.find?_isSome]
  simp only [Nsurl.compare_complete]

theorem findContent_eq_none (hnone : ¬ (findContent C list url).isSome = true) : ∀ h ∈ list, url.key ≠ (C.url h).key :=
  fun h hh heq => hnone (findContent_isSome.mpr ⟨h, hh, heq⟩)

/-- No two contents on the list have the same URL. -/
def Distinct (C : Cache) (list : List Handle) : Prop := (list.map fun h => (C.url h).key).Nodup

theorem Distinct.cons (hd : Distinct C list) (hnone : ¬ (findContent C list (C.url h)).isSome = true) :
    Distinct C (h :: list) := by
  refine nodup_cons.mpr ⟨fun hmem => ?_, hd⟩
  obtain ⟨h', hh', heq⟩ := mem_map.mp hmem
  exact findContent_eq_none hnone h' hh' heq.symm

theorem Distinct.contents (hd : Distinct C list) : (list.map C.content).Nodup := by
  refine List.Nodup.of_map (fun content => (C.contentUrl content).key) ?_
  rw [map_map]
  exact hd

/-! ## References -/

/-- The references are to contents on the list. -/
def Within (list : List Handle) (pieces : List Piece) : Prop := ∀ h, .ref h ∈ pieces → h ∈ list

theorem within_nil : Within list [] := fun _ hmem => absurd hmem not_mem_nil

theorem within_text (s : Bytes) : Within list [.text s] := by
  intro h hmem
  cases mem_singleton.mp hmem

theorem Within.append {pieces' : List Piece} (hp : Within list pieces) (hp' : Within list pieces') :
    Within list (pieces ++ pieces') := by
  intro h hmem
  rcases mem_append.mp hmem with hmem | hmem
  · exact hp h hmem
  · exact hp' h hmem

theorem Within.textCons (hp : Within list pieces) (s : Bytes) : Within list (.text s :: pieces) :=
  (within_text s).append hp

theorem Within.refCons (hp : Within list pieces) (hh : h ∈ list) : Within list (.ref h :: pieces) := by
  intro h' hmem
  rcases mem_cons.mp hmem with heq | hmem
  · cases heq
    exact hh
  · exact hp h' hmem

theorem Within.quoted (hp : Within list pieces) : Within list (quoted pieces) :=
  (hp.textCons _).append (within_text _)

theorem within_rewriteStylesheetUrls (n : Nat) (source : Bytes) :
    Within list (rewriteStylesheetUrls E C list base n source) := by
  induction n generalizing source with
  | zero => exact within_text _
  | succ n ih =>
    unfold rewriteStylesheetUrls
    split
    · exact within_text _
    · refine (Within.append ?_ (ih _)).textCons _
      split
      · rename_i hfind
        obtain ⟨url, -, hfind⟩ := Option.bind_eq_some_iff.mp hfind
        exact ((within_text _).refCons (mem_of_find?_eq_some hfind)).textCons _
      · exact within_text _

theorem within_writeValue {value : Bytes} (hwrite : writeValue E value = some pieces) : Within list pieces := by
  obtain ⟨escaped, -, heq⟩ := Option.bind_eq_some_iff.mp hwrite
  cases heq
  exact (within_text _).quoted

theorem within_handleAttrValue {node name value : Bytes}
    (hwrite : handleAttrValue E C list base node name value = some pieces) : Within list pieces := by
  unfold handleAttrValue at hwrite
  extract_lets isUrl at hwrite
  split at hwrite
  · unfold rewriteUrlValue at hwrite
    split at hwrite
    · exact within_writeValue hwrite
    · split at hwrite
      · rename_i hfind
        cases hwrite
        exact (within_nil.refCons (mem_of_find?_eq_some hfind)).quoted
      · exact within_writeValue hwrite
  · exact within_writeValue hwrite

theorem within_handleAttrs {node : Bytes} {attrs : List (Bytes × Option Bytes)}
    (hwrite : handleAttrs E C list base node attrs = some pieces) : Within list pieces := by
  induction attrs generalizing pieces with
  | nil =>
    cases hwrite
    exact within_nil
  | cons attr attrs ih =>
    obtain ⟨name, value⟩ := attr
    cases value with
    | none =>
      obtain ⟨rest, hrest, heq⟩ := Option.bind_eq_some_iff.mp hwrite
      cases heq
      exact (ih hrest).textCons _
    | some value =>
      obtain ⟨written, hvalue, hwrite⟩ := Option.bind_eq_some_iff.mp hwrite
      obtain ⟨rest, hrest, heq⟩ := Option.bind_eq_some_iff.mp hwrite
      cases heq
      exact ((within_handleAttrValue hvalue).append (ih hrest)).textCons _

theorem within_enterElement {name : Bytes} {attrs : List (Bytes × Option Bytes)} {children : List DomNode}
    {state : IterState} (hwrite : enterElement E C list base name attrs children = some (pieces, state)) :
    Within list pieces := by
  unfold enterElement at hwrite
  split at hwrite
  · obtain ⟨written, hattrs, hwrite⟩ := Option.bind_eq_some_iff.mp hwrite
    have htag : Within list (.text (str "<" ++ name) :: written ++ [.text (str ">")]) :=
      ((within_handleAttrs hattrs).textCons _).append (within_text _)
    split at hwrite
    · split at hwrite
      · cases hwrite
        exact htag.append (within_rewriteStylesheetUrls _ _)
      · cases hwrite
        exact htag
    · split at hwrite
      · cases hwrite
        exact htag.append (within_text _)
      · cases hwrite
        exact htag
  · cases hwrite
    exact within_nil

mutual

theorem within_walkNode {state state' : IterState} {pieces : List Piece} : ∀ {node : DomNode},
    walkNode E C list base node state = some (pieces, state') → Within list pieces
  | .element name attrs children, hwalk => by
    unfold walkNode at hwalk
    obtain ⟨⟨enter, state₁⟩, henter, hwalk⟩ := Option.bind_eq_some_iff.mp hwalk
    obtain ⟨⟨inner, state₂⟩, hinner, hwalk⟩ := Option.bind_eq_some_iff.mp hwalk
    cases hwalk
    refine ((within_enterElement henter).append (within_walkNodes hinner)).append ?_
    unfold leaveElement
    split
    · exact within_text _
    · exact within_nil
  | .text data, hwalk => by
    unfold walkNode at hwalk
    split at hwalk
    · cases hwalk
      exact within_nil
    · obtain ⟨escaped, -, hwalk⟩ := Option.bind_eq_some_iff.mp hwalk
      cases hwalk
      exact within_text _
  | .comment data, hwalk => by
    unfold walkNode at hwalk
    split at hwalk
    · cases hwalk
      exact within_nil
    · obtain ⟨escaped, -, hwalk⟩ := Option.bind_eq_some_iff.mp hwalk
      cases hwalk
      exact within_text _
  | .documentType name publicId systemId, hwalk => by
    unfold walkNode at hwalk
    cases hwalk
    exact within_text _

theorem within_walkNodes {state state' : IterState} {pieces : List Piece} : ∀ {nodes : List DomNode},
    walkNodes E C list base nodes state = some (pieces, state') → Within list pieces
  | [], hwalk => by
    unfold walkNodes at hwalk
    cases hwalk
    exact within_nil
  | node :: nodes, hwalk => by
    unfold walkNodes at hwalk
    obtain ⟨⟨first, state₁⟩, hfirst, hwalk⟩ := Option.bind_eq_some_iff.mp hwalk
    obtain ⟨⟨rest, state₂⟩, hrest, hwalk⟩ := Option.bind_eq_some_iff.mp hwalk
    cases hwalk
    exact (within_walkNode hfirst).append (within_walkNodes hrest)

end

/-! ## What is added -/

/-- What is between two contexts: the contents `ws` have been put on the list and written, the contents `us` only put
on the list. -/
structure Adds (C : Cache) (ws us : List Handle) (ctx ctx' : Ctx) : Prop where
  list : ∃ hs, ctx'.list = hs ++ ctx.list ∧ hs.Perm (ws ++ us)
  files : ∃ fs, ctx'.files = ctx.files ++ fs ∧ fs.map SavedFile.name = ws.map .content ∧
    ∀ file ∈ fs, Within ctx'.list file.body
  distinct : Distinct C ctx.list → Distinct C ctx'.list
  type : ∀ w ∈ ws, C.type w ≠ .html

theorem Adds.refl (ctx : Ctx) : Adds C [] [] ctx ctx where
  list := ⟨[], rfl, .refl _⟩
  files := ⟨[], (append_nil _).symm, rfl, fun _ hmem => absurd hmem not_mem_nil⟩
  distinct := id
  type _ hmem := absurd hmem not_mem_nil

theorem Adds.subset (h : Adds C ws us ctx ctx') : ctx.list ⊆ ctx'.list := by
  obtain ⟨hs, hlist, -⟩ := h.list
  rw [hlist]
  exact subset_append_right ..

theorem Adds.trans (h : Adds C ws us ctx ctx') (h' : Adds C ws' us' ctx' ctx'') :
    Adds C (ws ++ ws') (us ++ us') ctx ctx'' where
  list := by
    obtain ⟨hs, hlist, hperm⟩ := h.list
    obtain ⟨hs', hlist', hperm'⟩ := h'.list
    refine ⟨hs' ++ hs, by rw [hlist', hlist, append_assoc], ?_⟩
    have hparts : (ws ++ ws' ++ (us ++ us')).Perm (ws ++ us ++ (ws' ++ us')) := by
      rw [append_assoc, append_assoc]
      apply List.Perm.append_left
      rw [← append_assoc, ← append_assoc]
      exact perm_append_comm.append_right us'
    exact (perm_append_comm.trans (hperm.append hperm')).trans hparts.symm
  files := by
    obtain ⟨fs, hfiles, hnames, hwithin⟩ := h.files
    obtain ⟨fs', hfiles', hnames', hwithin'⟩ := h'.files
    refine ⟨fs ++ fs', by rw [hfiles', hfiles, append_assoc], ?_, ?_⟩
    · rw [map_append, map_append, hnames, hnames']
    · intro file hfile
      rcases mem_append.mp hfile with hfile | hfile
      · exact fun h hmem => h'.subset (hwithin file hfile h hmem)
      · exact hwithin' file hfile
  distinct := h'.distinct ∘ h.distinct
  type w hw := by
    rcases mem_append.mp hw with hw | hw
    · exact h.type w hw
    · exact h'.type w hw

theorem adds_addContent (hnone : ¬ (findContent C ctx.list (C.url h)).isSome = true) :
    Adds C [] [h] ctx (ctx.addContent h) where
  list := ⟨[h], rfl, .refl _⟩
  files := ⟨[], (append_nil _).symm, rfl, fun _ hmem => absurd hmem not_mem_nil⟩
  distinct hd := hd.cons hnone
  type _ hmem := absurd hmem not_mem_nil

theorem saveBuffer_eq_ok {name : FileName} : ctx.saveBuffer E name pieces = .ok ctx' ↔
    E.opens name = true ∧ ctx' = { ctx with files := ctx.files ++ [⟨name, pieces⟩] } := by
  unfold Ctx.saveBuffer
  split
  · rename_i hopens
    exact ⟨fun heq => ⟨hopens, (Except.ok.inj heq).symm⟩, fun heq => congrArg _ heq.2.symm⟩
  · rename_i hopens
    exact ⟨fun heq => (by cases heq), fun heq => absurd heq.1 hopens⟩

theorem Adds.saveBuffer (h : Adds C ws [css] ctx ctx') (htype : C.type css ≠ .html) (hwithin : Within ctx'.list pieces)
    (hsave : ctx'.saveBuffer E (.content css) pieces = .ok ctx'') : Adds C (ws ++ [css]) [] ctx ctx'' := by
  obtain ⟨-, rfl⟩ := saveBuffer_eq_ok.mp hsave
  obtain ⟨hs, hlist, hperm⟩ := h.list
  obtain ⟨fs, hfiles, hnames, hfs⟩ := h.files
  refine ⟨⟨hs, hlist, by rwa [append_nil]⟩, ⟨fs ++ [⟨.content css, pieces⟩], ?_, ?_, ?_⟩, h.distinct, ?_⟩
  · change ctx'.files ++ _ = _
    rw [hfiles, append_assoc]
  · rw [map_append, map_append, hnames]
    rfl
  · intro file hfile
    rcases mem_append.mp hfile with hfile | hfile
    · exact hfs file hfile
    · obtain rfl := mem_singleton.mp hfile
      exact hwithin
  · intro w hw
    rcases mem_append.mp hw with hw | hw
    · exact h.type w hw
    · rwa [mem_singleton.mp hw]

/-! ## Stylesheets -/

theorem saveSheets_adds {save : Handle → Ctx → Except SaveError Ctx} {sheets : List (Option Handle)}
    (hsave : ∀ css, some css ∈ sheets → ∀ ctx ctx', save css ctx = .ok ctx' → ∃ ws, Adds C ws [] ctx ctx')
    (hok : saveSheets save sheets ctx = .ok ctx') : ∃ ws, Adds C ws [] ctx ctx' := by
  induction sheets generalizing ctx with
  | nil =>
    obtain rfl := Except.ok.inj hok
    exact ⟨[], .refl ctx⟩
  | cons sheet sheets ih =>
    have hrest : ∀ css, some css ∈ sheets → ∀ ctx ctx', save css ctx = .ok ctx' → ∃ ws, Adds C ws [] ctx ctx' :=
      fun css hmem => hsave css (mem_cons_of_mem _ hmem)
    cases sheet with
    | none => exact ih hrest hok
    | some css =>
      obtain ⟨ctx₁, hcss, hok⟩ := bind_eq_ok.mp hok
      obtain ⟨ws, hadds⟩ := hsave css mem_cons_self ctx ctx₁ hcss
      obtain ⟨ws', hadds'⟩ := ih hrest hok
      exact ⟨ws ++ ws', hadds.trans hadds'⟩

theorem saveStylesheet_adds {n : Nat} (htype : C.type css ≠ .html) (hok : saveStylesheet E C n css ctx = .ok ctx') :
    ∃ ws, Adds C ws [] ctx ctx' := by
  induction n generalizing css ctx ctx' with
  | zero => cases hok
  | succ n ih =>
    unfold saveStylesheet at hok
    split at hok
    · cases hok
      exact ⟨[], .refl ctx⟩
    · rename_i hnone
      obtain ⟨ctx₁, hsheets, hok⟩ := bind_eq_ok.mp hok
      obtain ⟨ws, hadds⟩ := saveSheets_adds (fun css' hmem _ _ => ih (C.imports_mem css css' hmem).2) hsheets
      have hadds : Adds C ws [css] ctx ctx₁ := (adds_addContent hnone).trans hadds
      extract_lets cssData source at hok
      split at hok
      · exact ⟨_, hadds.saveBuffer htype (within_rewriteStylesheetUrls _ _) hok⟩
      · cases hok

/-! ## Objects -/

/-- An object that is shown is a page and there is a source to save. -/
def IsPage (C : Cache) (object : HtmlObject) (h : Handle) : Prop :=
  object.content = some h ∧ object.box = true ∧ C.type h = .html ∧ C.sourceData h ≠ none

theorem saveHtml_of_mem {n : Nat} {index : Bool} (htype : C.type h = .html) (hmem : h ∈ ctx.list) :
    saveHtml E C (n + 1) index h ctx = .ok ctx := by
  have hhas : hasContent C ctx.list h = true := any_eq_true.mpr ⟨h, hmem, beq_self_eq_true _⟩
  unfold saveHtml
  rw [if_neg (not_not_intro htype), if_pos hhas]

theorem saveHtmlObject_adds {n : Nat} (hok : saveHtmlObject E C (saveHtml E C (n + 1) false) obj ctx = .ok ctx') :
    ∃ ws us, Adds C ws us ctx ctx' ∧
      (us = [] ↔ (C.type obj = .html → C.sourceData obj ≠ none → (findContent C ctx.list (C.url obj)).isSome)) := by
  unfold saveHtmlObject at hok
  split at hok
  · rename_i htype
    cases hok
    refine ⟨[], [], .refl ctx, iff_of_true rfl fun hhtml => ?_⟩
    rw [htype] at hhtml
    cases hhtml
  · split at hok
    · rename_i hdata
      cases hok
      exact ⟨[], [], .refl ctx, iff_of_true rfl fun _ hsource => absurd hdata hsource⟩
    · rename_i data hdata
      split at hok
      · rename_i hsome
        cases hok
        exact ⟨[], [], .refl ctx, iff_of_true rfl fun _ _ => hsome⟩
      · rename_i hnone
        split at hok
        · rename_i hhtml
          rw [saveHtml_of_mem hhtml mem_cons_self] at hok
          cases hok
          refine ⟨[], [obj], adds_addContent hnone, iff_of_false (cons_ne_nil _ _) fun hfound => ?_⟩
          exact hnone (hfound hhtml (by rw [hdata]; exact Option.some_ne_none _))
        · rename_i hhtml
          split at hok
          · exact ⟨_, [], (adds_addContent hnone).saveBuffer hhtml (within_text _) hok,
              iff_of_true rfl fun heq => absurd heq hhtml⟩
          · cases hok

theorem saveHtmlObjects_cons {save : Handle → Ctx → Except SaveError Ctx} {object : HtmlObject}
    {objects : List HtmlObject} (hcontent : object.content = some h) (hbox : object.box = true) :
    saveHtmlObjects E C save (object :: objects) ctx = (do
      let ctx ← saveHtmlObject E C save h ctx
      saveHtmlObjects E C save objects ctx) := by
  rw [saveHtmlObjects, hcontent, hbox]

theorem saveHtmlObjects_skip {save : Handle → Ctx → Except SaveError Ctx} {object : HtmlObject}
    {objects : List HtmlObject} (hskip : ¬ ∃ h, object.content = some h ∧ object.box = true) :
    saveHtmlObjects E C save (object :: objects) ctx = saveHtmlObjects E C save objects ctx := by
  rw [saveHtmlObjects]
  split
  · rename_i content hcontent hbox
    exact absurd ⟨content, hcontent, hbox⟩ hskip
  · rfl

/-- Where a page among the objects is looked for, its URL is on the list. -/
def PagesFound (E : Env) (C : Cache) (n : Nat) (objects : List HtmlObject) (ctx : Ctx) : Prop :=
  ∀ pre object post h ctx', objects = pre ++ object :: post →
    saveHtmlObjects E C (saveHtml E C n false) pre ctx = .ok ctx' → IsPage C object h →
      (findContent C ctx'.list (C.url h)).isSome

theorem saveHtmlObjects_adds {n : Nat} {objects : List HtmlObject}
    (hok : saveHtmlObjects E C (saveHtml E C (n + 1) false) objects ctx = .ok ctx') :
    ∃ ws us, Adds C ws us ctx ctx' ∧ (us = [] ↔ PagesFound E C (n + 1) objects ctx) := by
  induction objects generalizing ctx with
  | nil =>
    obtain rfl := Except.ok.inj hok
    refine ⟨[], [], .refl ctx, iff_of_true rfl fun pre object post h ctx' heq => ?_⟩
    cases pre <;> cases heq
  | cons object objects ih =>
    by_cases hshown : ∃ h, object.content = some h ∧ object.box = true
    · obtain ⟨h, hcontent, hbox⟩ := hshown
      rw [saveHtmlObjects_cons hcontent hbox] at hok
      obtain ⟨ctx₁, hobject, hok⟩ := bind_eq_ok.mp hok
      obtain ⟨ws, us, hadds, hus⟩ := saveHtmlObject_adds hobject
      obtain ⟨ws', us', hadds', hus'⟩ := ih hok
      refine ⟨ws ++ ws', us ++ us', hadds.trans hadds', ?_⟩
      rw [append_eq_nil_iff, hus, hus']
      constructor
      · rintro ⟨hfirst, hrest⟩ pre object' post h' ctx₂ heq hpre hpage
        cases pre with
        | nil =>
          cases heq
          cases hpre
          obtain ⟨hcontent', -, hhtml, hsource⟩ := hpage
          obtain rfl := Option.some.inj (hcontent.symm.trans hcontent')
          exact hfirst hhtml hsource
        | cons first pre =>
          obtain ⟨rfl, htail⟩ := List.cons.inj heq
          rw [saveHtmlObjects_cons hcontent hbox] at hpre
          obtain ⟨ctx₃, hobject', hpre⟩ := bind_eq_ok.mp hpre
          obtain rfl := Except.ok.inj (hobject.symm.trans hobject')
          exact hrest pre object' post h' ctx₂ htail hpre hpage
      · intro hfound
        refine ⟨fun hhtml hsource => ?_, fun pre object' post h' ctx₂ heq hpre hpage => ?_⟩
        · exact hfound [] object objects h ctx rfl rfl ⟨hcontent, hbox, hhtml, hsource⟩
        · refine hfound (object :: pre) object' post h' ctx₂ (congrArg _ heq) ?_ hpage
          rw [saveHtmlObjects_cons hcontent hbox]
          exact bind_eq_ok.mpr ⟨ctx₁, hobject, hpre⟩
    · rw [saveHtmlObjects_skip hshown] at hok
      obtain ⟨ws, us, hadds, hus⟩ := ih hok
      refine ⟨ws, us, hadds, hus.trans ⟨fun hrest => ?_, fun hfound => ?_⟩⟩
      · intro pre object' post h' ctx₂ heq hpre hpage
        cases pre with
        | nil =>
          cases heq
          exact absurd ⟨h', hpage.1, hpage.2.1⟩ hshown
        | cons first pre =>
          obtain ⟨rfl, htail⟩ := List.cons.inj heq
          rw [saveHtmlObjects_skip hshown] at hpre
          exact hrest pre object' post h' ctx₂ htail hpre hpage
      · intro pre object' post h' ctx₂ heq hpre hpage
        refine hfound (object :: pre) object' post h' ctx₂ (congrArg _ heq) ?_ hpage
        rw [saveHtmlObjects_skip hshown]
        exact hpre

/-! ## The whole run -/

/-- Each reference is to a file of the run. -/
def Closed (files : List SavedFile) : Prop :=
  ∀ file ∈ files, ∀ h, .ref h ∈ file.body → ∃ file' ∈ files, file'.name = .content h

/-- The content that a file of the page `c` is for. -/
def FileName.writes (C : Cache) (c : Handle) : FileName → Option Content
  | .index => some (C.content c)
  | .inventory => none
  | .content h => some (C.content h)

/-- No content is written twice. -/
def WrittenOnce (C : Cache) (c : Handle) (files : List SavedFile) : Prop :=
  (files.filterMap fun file => file.name.writes C c).Nodup

/-- Where a page in the page `c` is looked for, its URL is that of a content that is saved already. -/
def FoundBefore (E : Env) (C : Cache) (c : Handle) : Prop :=
  ∀ ctx, saveSheets (saveStylesheet E C C.depth) (C.stylesheets c) ⟨[], []⟩ = .ok ctx →
    PagesFound E C 1 (C.objects c) ctx

theorem saveComplete_parts {files : List SavedFile} (hok : saveComplete E C c = .ok files) :
    ∃ ctx₀ ctx₁ body, C.type c = .html ∧
      saveSheets (saveStylesheet E C C.depth) (C.stylesheets c) ⟨[], []⟩ = .ok ctx₀ ∧
      saveHtmlObjects E C (saveHtml E C 1 false) (C.objects c) ctx₀ = .ok ctx₁ ∧ Within ctx₁.list body ∧
      files = ctx₁.files ++ [⟨.index, body⟩, ⟨.inventory, ctx₁.list.flatMap (inventoryLine C)⟩] := by
  obtain ⟨ctx, hpage, hok⟩ := bind_eq_ok.mp hok
  obtain ⟨ctx', hinventory, hok⟩ := bind_eq_ok.mp hok
  cases hok
  unfold saveHtml at hpage
  split at hpage
  · cases hpage
  · rename_i htype
    split at hpage
    · rename_i hhas
      cases hhas
    · obtain ⟨ctx₀, hsheets, hpage⟩ := bind_eq_ok.mp hpage
      obtain ⟨ctx₁, hobjects, hpage⟩ := bind_eq_ok.mp hpage
      unfold saveHtmlDocument at hpage
      extract_lets name at hpage
      split at hpage
      · split at hpage
        · rename_i body state hwalk
          obtain ⟨-, rfl⟩ := saveBuffer_eq_ok.mp hpage
          obtain ⟨-, rfl⟩ := saveBuffer_eq_ok.mp hinventory
          refine ⟨ctx₀, ctx₁, body, not_not.mp htype, hsheets, hobjects, within_walkNodes hwalk, ?_⟩
          exact append_assoc ..
        · cases hpage
      · cases hpage

theorem ref_mem_inventory (hmem : h ∈ list) : .ref h ∈ list.flatMap (inventoryLine C) :=
  mem_flatMap.mpr ⟨h, hmem, mem_cons_self⟩

theorem within_inventory : Within list (list.flatMap (inventoryLine C)) := by
  intro h hmem
  obtain ⟨h', hh', hline⟩ := mem_flatMap.mp hmem
  rcases mem_cons.mp hline with heq | hline
  · cases heq
    exact hh'
  · cases mem_singleton.mp hline

/-- The references of a run all have their file and no content is written twice, exactly if each page in the page has
the URL of a content that is saved before it. -/
theorem saveComplete_closed_iff {files : List SavedFile} (hok : saveComplete E C c = .ok files) :
    Closed files ∧ WrittenOnce C c files ↔ FoundBefore E C c := by
  obtain ⟨ctx₀, ctx₁, body, htype, hsheets, hobjects, hbody, rfl⟩ := saveComplete_parts hok
  obtain ⟨ws₀, hadds₀⟩ := saveSheets_adds
    (fun css hmem _ _ => saveStylesheet_adds (C.stylesheets_mem c css hmem).2) hsheets
  obtain ⟨ws₁, us, hadds₁, hus⟩ := saveHtmlObjects_adds hobjects
  have hadds := hadds₀.trans hadds₁
  have hfound : FoundBefore E C c ↔ us = [] := by
    rw [hus]
    refine ⟨fun hfound => hfound ctx₀ hsheets, fun hfound ctx hsheets' => ?_⟩
    obtain rfl := Except.ok.inj (hsheets.symm.trans hsheets')
    exact hfound
  rw [hfound]
  -- What is on the list has been written or is in `us`, and not both.
  obtain ⟨hs, hlist, hperm⟩ := hadds.list
  obtain ⟨fs, hfiles, hnames, hwithin⟩ := hadds.files
  obtain rfl : ctx₁.list = hs := hlist.trans (append_nil hs)
  obtain rfl : ctx₁.files = fs := hfiles
  have hcontents : ((ws₀ ++ ws₁ ++ us).map C.content).Nodup :=
    (hperm.map C.content).nodup_iff.mp (hadds.distinct nodup_nil).contents
  have hwritten {u : Handle} : u ∈ ws₀ ++ ws₁ ↔ ∃ file ∈ ctx₁.files, file.name = .content u := by
    rw [← mem_map_of_injective (fun _ _ heq => FileName.content.inj heq), ← hnames, mem_map]
  constructor
  · rintro ⟨hclosed, -⟩
    refine eq_nil_iff_forall_not_mem.mpr fun u hu => ?_
    have hmem : u ∈ ctx₁.list := hperm.mem_iff.mpr (mem_append_right _ hu)
    obtain ⟨file, hfile, hname⟩ :=
      hclosed _ (mem_append_right _ (mem_pair.mpr (.inr rfl))) u (ref_mem_inventory hmem)
    have hw : u ∈ ws₀ ++ ws₁ := by
      refine hwritten.mpr ⟨file, ?_, hname⟩
      rcases mem_append.mp hfile with hfile | hfile
      · exact hfile
      · rcases mem_pair.mp hfile with rfl | rfl <;> cases hname
    rw [map_append] at hcontents
    exact (nodup_append.mp hcontents).2.2 _ (mem_map_of_mem hw) _ (mem_map_of_mem hu) rfl
  · rintro rfl
    rw [append_nil] at hcontents
    constructor
    · intro file hfile h hmem
      have hh : h ∈ ctx₁.list := by
        rcases mem_append.mp hfile with hfile | hfile
        · exact hwithin file hfile h hmem
        · rcases mem_pair.mp hfile with rfl | rfl
          · exact hbody h hmem
          · exact within_inventory h hmem
      have hw : h ∈ ws₀ ++ ws₁ := by
        have hmem := hperm.mem_iff.mp hh
        rwa [append_nil, append_nil] at hmem
      obtain ⟨file', hfile', hname⟩ := hwritten.mp hw
      exact ⟨file', mem_append_left _ hfile', hname⟩
    · have hwrites : ctx₁.files.filterMap (fun file => file.name.writes C c) = (ws₀ ++ ws₁).map C.content := by
        rw [← Function.comp_def (fun name : FileName => name.writes C c) SavedFile.name, ← filterMap_map, hnames,
          filterMap_map]
        exact congrFun (filterMap_eq_map (f := C.content)) (ws₀ ++ ws₁)
      unfold WrittenOnce
      rw [filterMap_append, hwrites]
      change ((ws₀ ++ ws₁).map C.content ++ [C.content c]).Nodup
      refine nodup_append.mpr ⟨hcontents, nodup_singleton _, fun content hmem content' hmem' heq => ?_⟩
      obtain ⟨w, hw, rfl⟩ := mem_map.mp hmem
      obtain rfl := mem_singleton.mp hmem'
      apply hadds.type w hw
      unfold Cache.type
      rw [heq]
      exact htype

/-! ## A page with a frame -/

/-- A URL of the site that is saved. -/
def siteUrl (path : Bytes) : Nsurl :=
  let c : Nsurl.Components :=
    { Nsurl.emptyComponents .http with scheme := some (str "http"), host := some (str "h"), path := some path }
  ⟨c, Nsurl.calcHash .plain c, 8 + path.length, str "http://h" ++ path⟩

/-- The page 0 shows the page 1. -/
def framePage : Cache where
  handles := [0, 1]
  content := id
  contentUrl content := siteUrl (if content = 0 then str "/" else str "/frame")
  contentType _ := .html
  sourceData _ := some (str "<html></html>")
  hasMimeType _ := true
  imports _ := []
  stylesheets _ := []
  objects h := if h = 0 then [⟨some 1, true⟩] else []
  baseUrl h := siteUrl (if h = 0 then str "/" else str "/frame")
  document h := [.element (str "html") []
    (if h = 0 then [.element (str "iframe") [(str "src", some (str "frame"))] []] else [])]
  stylesheets_mem _ _ hmem := absurd hmem not_mem_nil
  imports_mem _ _ hmem := absurd hmem not_mem_nil

/-- Nothing has to be escaped, and all files can be opened. -/
def siteEnv : Env where
  P := .plain
  mem _ := 0
  importRe _ := none
  toHtml := some
  textContent _ := none
  opens _ := true

theorem saveComplete_closed_iff_framePage : ∃ files, saveComplete siteEnv framePage 0 = .ok files ∧
    (Closed files ∧ WrittenOnce framePage 0 files ↔ FoundBefore siteEnv framePage 0) := by
  cases hok : saveComplete siteEnv framePage 0 with
  | ok files => exact ⟨files, rfl, saveComplete_closed_iff hok⟩
  | error e =>
    have hsome : (saveComplete siteEnv framePage 0).toOption.isSome = true := by decide
    rw [hok] at hsome
    cases hsome

/-- The frame is in the inventory, and there is no file for it. -/
theorem not_saveComplete_closed : ¬ ∀ (E : Env) (C : Cache) (c : Handle) (files : List SavedFile),
    saveComplete E C c = .ok files → Closed files ∧ WrittenOnce C c files := by
  intro hclaim
  have hfiles : (saveComplete siteEnv framePage 0).toOption.any (fun files =>
      files.any (fun file => decide (.ref 1 ∈ file.body)) && files.all fun file => file.name ≠ .content 1) = true := by
    decide
  cases hok : saveComplete siteEnv framePage 0 with
  | error e =>
    rw [hok] at hfiles
    cases hfiles
  | ok files =>
    rw [hok] at hfiles
    obtain ⟨hrefs, hnames⟩ := Bool.and_eq_true_iff.mp hfiles
    obtain ⟨file, hfile, hmem⟩ := any_eq_true.mp hrefs
    obtain ⟨file', hfile', hname⟩ := (hclaim _ _ _ _ hok).1 file hfile 1 (of_decide_eq_true hmem)
    exact of_decide_eq_true (all_eq_true.mp hnames file' hfile') hname

/-! ## A run comes to an end -/

/-- How many of the contents have a URL that is not on the list. -/
def missing (C : Cache) (list : List Handle) : Nat := C.handles.countP fun h => (findContent C list (C.url h)).isNone

theorem findContent_mono {list' : List Handle} (hsub : list ⊆ list') (hsome : (findContent C list url).isSome = true) :
    (findContent C list' url).isSome = true := by
  obtain ⟨h, hh, heq⟩ := findContent_isSome.mp hsome
  exact findContent_isSome.mpr ⟨h, hsub hh, heq⟩

theorem isNone_mono {list' : List Handle} (hsub : list ⊆ list') (hnone : (findContent C list' url).isNone = true) :
    (findContent C list url).isNone = true := by
  by_contra hsome
  rw [Bool.not_eq_true, Option.isNone_eq_false_iff] at hsome
  have hsome' := findContent_mono hsub hsome
  rw [Option.isNone_iff_eq_none.mp hnone] at hsome'
  cases hsome'

theorem missing_le {list' : List Handle} (hsub : list ⊆ list') : missing C list' ≤ missing C list :=
  countP_mono_left fun _ _ hnone => isNone_mono hsub hnone

theorem missing_lt (hmem : h ∈ C.handles) (hnone : ¬ (findContent C list (C.url h)).isSome = true) :
    missing C (h :: list) < missing C list := by
  obtain ⟨before, after, hhandles⟩ := append_of_mem hmem
  have hle (handles : List Handle) : handles.countP (fun h' => (findContent C (h :: list) (C.url h')).isNone) ≤
      handles.countP fun h' => (findContent C list (C.url h')).isNone :=
    countP_mono_left fun _ _ hnone => isNone_mono (subset_cons_self h list) hnone
  have hbefore := hle before
  have hafter := hle after
  have hself : ¬ (findContent C (h :: list) (C.url h)).isNone = true := by
    rw [Bool.not_eq_true, Option.isNone_eq_false_iff]
    exact findContent_isSome.mpr ⟨h, mem_cons_self, rfl⟩
  unfold missing
  have hself' : (findContent C list (C.url h)).isNone = true := by
    rwa [Bool.not_eq_true, Option.isSome_eq_false_iff] at hnone
  rw [hhandles, countP_append, countP_append, countP_cons, countP_cons, if_neg hself, if_pos hself']
  omega

theorem bind_ne_depth {α β : Type} {x : Except SaveError α} {f : α → Except SaveError β} (hx : x ≠ .error .depth)
    (hf : ∀ a, x = .ok a → f a ≠ .error .depth) : x >>= f ≠ .error .depth := by
  cases x with
  | error e => exact fun heq => hx (congrArg Except.error (Except.error.inj heq))
  | ok a => exact hf a rfl

theorem saveBuffer_ne_depth {name : FileName} : ctx.saveBuffer E name pieces ≠ .error .depth := by
  unfold Ctx.saveBuffer
  split <;> exact fun heq => by cases heq

theorem saveSheets_ne_depth {save : Handle → Ctx → Except SaveError Ctx} {sheets : List (Option Handle)} {n : Nat}
    (hsave : ∀ css, some css ∈ sheets → ∀ ctx, missing C ctx.list < n → save css ctx ≠ .error .depth)
    (hadds : ∀ css, some css ∈ sheets → ∀ ctx ctx', save css ctx = .ok ctx' → ctx.list ⊆ ctx'.list)
    (hn : missing C ctx.list < n) : saveSheets save sheets ctx ≠ .error .depth := by
  induction sheets generalizing ctx with
  | nil => exact fun heq => by cases heq
  | cons sheet sheets ih =>
    have ih {ctx : Ctx} := @ih ctx (fun css hmem => hsave css (mem_cons_of_mem _ hmem))
      (fun css hmem => hadds css (mem_cons_of_mem _ hmem))
    cases sheet with
    | none => exact ih hn
    | some css =>
      refine bind_ne_depth (hsave css mem_cons_self ctx hn) fun ctx' hcss => ?_
      have hsub := hadds css mem_cons_self ctx ctx' hcss
      exact ih (Nat.lt_of_le_of_lt (missing_le hsub) hn)

theorem saveStylesheet_ne_depth {n : Nat} (hmem : css ∈ C.handles) (htype : C.type css ≠ .html)
    (hn : missing C ctx.list < n) : saveStylesheet E C n css ctx ≠ .error .depth := by
  induction n generalizing css ctx with
  | zero => exact absurd hn (Nat.not_lt_zero _)
  | succ n ih =>
    unfold saveStylesheet
    split
    · exact fun heq => by cases heq
    · rename_i hnone
      have hlt := missing_lt hmem hnone
      have hsheets : saveSheets (saveStylesheet E C n) (C.imports css) (ctx.addContent css) ≠ .error .depth := by
        refine saveSheets_ne_depth (fun css' hcss' _ => ?_) (fun css' hcss' ctx ctx' hok => ?_)
          (Nat.lt_of_lt_of_le hlt (Nat.le_of_lt_succ hn))
        · exact ih (C.imports_mem css css' hcss').1 (C.imports_mem css css' hcss').2
        · obtain ⟨ws, hadds⟩ := saveStylesheet_adds (C.imports_mem css css' hcss').2 hok
          exact hadds.subset
      refine bind_ne_depth hsheets fun ctx' _ => ?_
      extract_lets cssData source
      split
      · exact saveBuffer_ne_depth
      · exact fun heq => by cases heq

theorem saveHtmlObject_ne_depth {n : Nat} :
    saveHtmlObject E C (saveHtml E C (n + 1) false) obj ctx ≠ .error .depth := by
  unfold saveHtmlObject
  split
  · exact fun heq => by cases heq
  · split
    · exact fun heq => by cases heq
    · split
      · exact fun heq => by cases heq
      · split
        · rename_i hhtml
          rw [saveHtml_of_mem hhtml mem_cons_self]
          exact fun heq => by cases heq
        · split
          · exact saveBuffer_ne_depth
          · exact fun heq => by cases heq

theorem saveHtmlObjects_ne_depth {n : Nat} {objects : List HtmlObject} :
    saveHtmlObjects E C (saveHtml E C (n + 1) false) objects ctx ≠ .error .depth := by
  induction objects generalizing ctx with
  | nil => exact fun heq => by cases heq
  | cons object objects ih =>
    by_cases hshown : ∃ h, object.content = some h ∧ object.box = true
    · obtain ⟨h, hcontent, hbox⟩ := hshown
      rw [saveHtmlObjects_cons hcontent hbox]
      exact bind_ne_depth saveHtmlObject_ne_depth fun _ _ => ih
    · rw [saveHtmlObjects_skip hshown]
      exact ih

theorem saveHtmlDocument_ne_depth {index : Bool} : saveHtmlDocument E C c index ctx ≠ .error .depth := by
  unfold saveHtmlDocument
  extract_lets name
  split
  · split
    · exact saveBuffer_ne_depth
    · exact fun heq => by cases heq
  · exact fun heq => by cases heq

theorem saveComplete_ne_depth : saveComplete E C c ≠ .error .depth := by
  refine bind_ne_depth ?_ fun ctx _ => bind_ne_depth saveBuffer_ne_depth fun _ _ heq => by cases heq
  unfold saveHtml
  split
  · exact fun heq => by cases heq
  · split
    · exact fun heq => by cases heq
    · have hmem (css : Handle) (hcss : some css ∈ C.stylesheets c) := C.stylesheets_mem c css hcss
      have hsheets : saveSheets (saveStylesheet E C C.depth) (C.stylesheets c) ⟨[], []⟩ ≠ .error .depth := by
        refine saveSheets_ne_depth (fun css hcss _ => saveStylesheet_ne_depth (hmem css hcss).1 (hmem css hcss).2)
          (fun css hcss ctx ctx' hok => ?_) (Nat.lt_succ_of_le countP_le_length)
        obtain ⟨ws, hadds⟩ := saveStylesheet_adds (hmem css hcss).2 hok
        exact hadds.subset
      exact bind_ne_depth hsheets fun _ _ =>
        bind_ne_depth saveHtmlObjects_ne_depth fun _ _ => saveHtmlDocument_ne_depth

end Nami.SaveComplete
