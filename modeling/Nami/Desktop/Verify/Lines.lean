import Nami.Desktop.Verify.Replace

/-!
# The lines cover the text

Each line starts where the one before ends, behind its newline if it has one, and the last one ends with the text:
`Covers`. The loop of the layout extends the lines of a part of the text, `Laid`, which is also what an earlier
layout leaves of the lines before a change.
-/

namespace Nami.Desktop

open List

/-- Where the next line starts. -/
def nextStart (text : Bytes) (l : LineInfo) : Nat := if text[l.bEnd]? = some lf then l.bEnd + 1 else l.bEnd

/-- The lines of a table, from the beginning of the text to its end. -/
structure Covers (text : Bytes) (lines : List LineInfo) : Prop where
  count : 1 ≤ lines.length
  first : ∀ l, lines[0]? = some l → l.bStart = 0
  next : ∀ i l l', lines[i]? = some l → lines[i + 1]? = some l' → l'.bStart = nextStart text l
  last : ∀ l, lines.getLast? = some l → l.bEnd = text.length
  caret : ∀ bOff ≤ text.length, ∃ l, lines[lineAt lines bOff]? = some l ∧ l.bStart ≤ bOff ∧ bOff ≤ l.bEnd

/-- Lines one after another from the beginning of the text, and where the next one starts. -/
inductive Laid (text : Bytes) : List LineInfo → Nat → Prop where
  | nil : Laid text [] 0
  | snoc {lines : List LineInfo} {l : LineInfo} :
    Laid text lines l.bStart → l.bStart < nextStart text l → Laid text (lines ++ [l]) (nextStart text l)

/-- Where the last line may be empty. -/
def Ends (text : Bytes) (lines : List LineInfo) : Prop :=
  ∃ before l, lines = before ++ [l] ∧ Laid text before l.bStart ∧ l.bEnd = text.length

variable {text text' : Bytes} {lines : List LineInfo} {l l' : LineInfo} {i start bOff : Nat}

/-! ## Tables of lines -/

theorem bEnd_le_nextStart (text : Bytes) (l : LineInfo) : l.bEnd ≤ nextStart text l := by
  unfold nextStart
  split <;> omega

theorem nextStart_le (text : Bytes) (l : LineInfo) : nextStart text l ≤ l.bEnd + 1 := by
  unfold nextStart
  split <;> omega

theorem lineAt_spec (hne : lines ≠ []) (bOff : Nat) : lineAt lines bOff < lines.length ∧
    (∀ k l, k + 1 ≤ lineAt lines bOff → lines[k + 1]? = some l → l.bStart ≤ bOff) ∧
      ∀ l, lines[lineAt lines bOff + 1]? = some l → bOff < l.bStart := by
  obtain ⟨head, tail, rfl⟩ := exists_cons_of_ne_nil hne
  unfold lineAt
  rw [tail_cons]
  refine ⟨Nat.lt_succ_of_le (List.takeWhile_prefix _).length_le, ?_⟩
  simp only [List.getElem?_cons_succ]
  induction tail with
  | nil => exact ⟨fun k l hk => absurd hk (Nat.not_succ_le_zero k), fun l hl => nomatch hl⟩
  | cons scan rest ih =>
    by_cases hscan : scan.bStart ≤ bOff
    · rw [takeWhile_cons_of_pos (by simpa using hscan)]
      obtain ⟨hbefore, hbehind⟩ := ih (cons_ne_nil _ _)
      refine ⟨fun k l hk hl => ?_, hbehind⟩
      cases k with
      | zero =>
        cases hl
        exact hscan
      | succ k => exact hbefore k l (Nat.le_of_succ_le_succ hk) hl
    · rw [takeWhile_cons_of_neg (by simpa using hscan)]
      refine ⟨fun k l hk => absurd hk (Nat.not_succ_le_zero k), fun l hl => ?_⟩
      cases hl
      exact Nat.lt_of_not_le hscan

namespace Laid

theorem snoc_inv (h : Laid text (lines ++ [l]) start) :
    Laid text lines l.bStart ∧ start = nextStart text l ∧ l.bStart < start := by
  generalize hall : lines ++ [l] = all at h
  cases h with
  | nil => simp at hall
  | snoc h hlt =>
    obtain ⟨rfl, hlast⟩ := append_inj' hall rfl
    obtain rfl := singleton_inj.mp hlast
    exact ⟨h, rfl, hlt⟩

theorem first (h : Laid text lines start) (hstart : l'.bStart = start) (hl : (lines ++ [l'])[0]? = some l) :
    l.bStart = 0 := by
  induction h generalizing l' with
  | nil =>
    cases hl
    exact hstart
  | snoc h hlt ih =>
    rw [List.getElem?_append_left (by rw [length_append]; exact Nat.succ_pos _)] at hl
    exact ih rfl hl

theorem next {a b : LineInfo} (h : Laid text lines start) (hstart : l'.bStart = start)
    (ha : (lines ++ [l'])[i]? = some a) (hb : (lines ++ [l'])[i + 1]? = some b) : b.bStart = nextStart text a := by
  induction h generalizing l' i a b with
  | nil => cases hb
  | @snoc lines l h hlt ih =>
    have hlen : (lines ++ [l]).length = lines.length + 1 := length_append
    have hi : i + 1 < (lines ++ [l] ++ [l']).length := (List.getElem?_eq_some_iff.mp hb).1
    rw [length_append, hlen] at hi
    obtain hi | rfl := Nat.lt_or_eq_of_le (Nat.le_of_lt_succ (Nat.lt_of_succ_lt_succ hi))
    · rw [List.getElem?_append_left (by omega)] at ha hb
      exact ih rfl ha hb
    · rw [List.getElem?_append_left (by omega), List.getElem?_concat_length] at ha
      rw [← hlen, List.getElem?_concat_length] at hb
      cases ha
      cases hb
      exact hstart

theorem take (h : Laid text lines start) (hl : lines[i]? = some l) : Laid text (lines.take i) l.bStart := by
  induction h generalizing l with
  | nil => cases hl
  | @snoc lines last h hlt ih =>
    have hi : i < (lines ++ [last]).length := (List.getElem?_eq_some_iff.mp hl).1
    rw [length_append] at hi
    obtain hi | rfl := Nat.lt_or_eq_of_le (Nat.le_of_lt_succ hi)
    · rw [List.getElem?_append_left hi] at hl
      rw [take_append_of_le_length (Nat.le_of_lt hi)]
      exact ih hl
    · rw [List.getElem?_concat_length] at hl
      cases hl
      rwa [take_left]

theorem congr (h : Laid text lines start) (hlt : start < bOff) (heq : text'.take bOff = text.take bOff) :
    Laid text' lines start := by
  induction h with
  | nil => exact .nil
  | @snoc lines l h hstart ih =>
    have hend : l.bEnd < bOff := Nat.lt_of_le_of_lt (bEnd_le_nextStart text l) hlt
    have hsame : nextStart text l = nextStart text' l := by
      unfold nextStart
      rw [← List.getElem?_take_of_lt hend, ← heq, List.getElem?_take_of_lt hend]
    rw [hsame] at hstart ⊢
    exact .snoc (ih (by omega)) hstart

end Laid

namespace Ends

theorem take (h : Ends text lines) (hl : lines[i]? = some l) : Laid text (lines.take i) l.bStart := by
  obtain ⟨before, last, rfl, hlaid, -⟩ := h
  have hi : i < (before ++ [last]).length := (List.getElem?_eq_some_iff.mp hl).1
  rw [length_append] at hi
  obtain hi | rfl := Nat.lt_or_eq_of_le (Nat.le_of_lt_succ hi)
  · rw [List.getElem?_append_left hi] at hl
    rw [take_append_of_le_length (Nat.le_of_lt hi)]
    exact hlaid.take hl
  · rw [List.getElem?_concat_length] at hl
    cases hl
    rwa [take_left]

theorem lt (h : Ends text lines) (hl : lines[i]? = some l) (hl' : lines[i + 1]? = some l') : l.bStart < l'.bStart := by
  have htake := h.take hl'
  rw [take_add_one, hl] at htake
  obtain ⟨-, -, hlt⟩ := htake.snoc_inv
  exact hlt

theorem covers (h : Ends text lines) : Covers text lines := by
  obtain ⟨before, last, rfl, hlaid, hend⟩ := h
  have hnext : ∀ i l l', (before ++ [last])[i]? = some l → (before ++ [last])[i + 1]? = some l' →
      l'.bStart = nextStart text l := fun i l l' hl hl' => hlaid.next rfl hl hl'
  refine ⟨?_, fun l hl => hlaid.first rfl hl, hnext, ?_, ?_⟩
  · rw [length_append]
    exact Nat.le_add_left ..
  · intro l hl
    rw [List.getLast?_concat] at hl
    cases hl
    exact hend
  · intro bOff hbOff
    obtain ⟨hlt, hbefore, hbehind⟩ := lineAt_spec (show before ++ [last] ≠ [] by simp) bOff
    generalize lineAt (before ++ [last]) bOff = i at *
    refine ⟨_, List.getElem?_eq_getElem hlt, ?_, ?_⟩
    · cases i with
      | zero =>
        rw [hlaid.first rfl (List.getElem?_eq_getElem hlt)]
        exact Nat.zero_le _
      | succ k => exact hbefore k _ (Nat.le_refl _) (List.getElem?_eq_getElem hlt)
    · by_cases hi : i + 1 < (before ++ [last]).length
      · have hstart := hbehind _ (List.getElem?_eq_getElem hi)
        rw [hnext i _ _ (List.getElem?_eq_getElem hlt) (List.getElem?_eq_getElem hi)] at hstart
        exact Nat.le_of_lt_succ (Nat.lt_of_lt_of_le hstart (nextStart_le ..))
      · have hi : i = before.length := by
          rw [length_append] at hlt hi
          exact Nat.le_antisymm (Nat.le_of_lt_succ hlt) (Nat.le_of_succ_le_succ (Nat.le_of_not_lt hi))
        subst hi
        rw [getElem_concat_length rfl]
        omega

end Ends

/-! ## The loop -/

/-- The contract of `split`: it splits at a space or at the end, and something off what is not empty. -/
structure Measure.Splits (m : Measure) : Prop where
  le : ∀ text w, (m.split text w).1 ≤ text.length
  pos : ∀ text w, text ≠ [] → 0 < (m.split text w).1
  space : ∀ text w, (m.split text w).1 < text.length → text[(m.split text w).1]? = some space

/-- The space at which a line is wrapped is not the last byte before a newline. -/
def WrapsInside (m : Measure) (text : Bytes) (w : Int) (l : LineInfo) : Prop :=
  let rest := text.drop l.bStart
  let para := TextareaLayout.paragraph rest
  (m.split para w).1 + 1 = para.length → rest[para.length]? ≠ some lf

namespace TextareaLayout

variable {m : Measure} {layout layout' : TextareaLayout} {rest : Bytes} {w h h' x : Int} {n : Nat}

theorem lastSpace_of_space (hpos : 0 < bOff) (hspace : rest[bOff]? = some space) : lastSpace rest bOff = bOff + 1 := by
  obtain ⟨k, rfl⟩ := Nat.exists_eq_succ_of_ne_zero (Nat.ne_of_gt hpos)
  unfold lastSpace
  rw [if_pos hspace]

theorem paragraph_spec (rest : Bytes) : ∃ tail, rest = paragraph rest ++ tail ∧ lf ∉ paragraph rest ∧
    (tail = [] ∨ ∃ behind, tail = lf :: behind) := by
  refine ⟨rest.dropWhile (· ≠ lf), takeWhile_append_dropWhile.symm, fun hmem => ?_, ?_⟩
  · exact absurd (mem_takeWhile_imp hmem) (by simp)
  · cases hdrop : rest.dropWhile (· ≠ lf) with
    | nil => exact .inl rfl
    | cons c behind =>
      have hhead := List.head?_dropWhile_not (fun c => decide (c ≠ lf)) rest
      rw [hdrop] at hhead
      obtain rfl : c = lf := by simpa using hhead
      exact .inr ⟨behind, rfl⟩

@[simp] theorem addBarX_lines (layout : TextareaLayout) (x : Int) : (layout.addBarX x).lines = layout.lines := by
  unfold addBarX
  split <;> rfl

@[simp] theorem addBarX_availWidth (layout : TextareaLayout) (x : Int) :
    (layout.addBarX x).availWidth = layout.availWidth := by
  unfold addBarX
  split <;> rfl

theorem layoutLine_lines (m : Measure) (layout : TextareaLayout) (rest : Bytes) (start : Nat) :
    ∃ l more, (layout.layoutLine m rest start).1.lines = layout.lines ++ l :: more ∧ l.bStart = start := by
  have hadd (x : Int) (l : LineInfo) : ((layout.addBarX x).addLine l).lines = layout.lines ++ [l] :=
    congrArg (· ++ [l]) (addBarX_lines layout x)
  unfold layoutLine placeLine
  dsimp only
  split
  · split
    · refine ⟨_, [_], (congrArg (· ++ [_]) (hadd ..)).trans (append_assoc ..), rfl⟩
    · exact ⟨_, [], hadd .., rfl⟩
  · exact ⟨_, [], hadd .., rfl⟩

theorem layoutLine_availWidth (m : Measure) (layout : TextareaLayout) (rest : Bytes) (start : Nat) :
    (layout.layoutLine m rest start).1.availWidth = layout.availWidth := by
  unfold layoutLine placeLine
  dsimp only
  split
  · split <;> exact addBarX_availWidth ..
  · exact addBarX_availWidth ..

theorem layoutLine_laid (hm : m.Splits) (hlaid : Laid text layout.lines start) (hne : text.drop start ≠ [])
    (hinside : WrapsInside m text layout.availWidth ⟨start, 0, 0⟩)
    (hline : layout.layoutLine m (text.drop start) start = (layout', bOff)) :
    0 < bOff ∧ ((text.drop start).drop bOff = [] ∧ Ends text layout'.lines ∨
      (text.drop start).drop bOff ≠ [] ∧ Laid text layout'.lines (start + bOff)) := by
  have hstart : start < text.length := by
    by_contra hle
    exact hne (drop_eq_nil_of_le (Nat.le_of_not_lt hle))
  have hget (k : Nat) : (text.drop start)[k]? = text[start + k]? := List.getElem?_drop
  have hlen : (text.drop start).length = text.length - start := length_drop
  obtain ⟨tail, hrest, hnone, htail⟩ := paragraph_spec (text.drop start)
  have hle := hm.le (paragraph (text.drop start)) layout.availWidth
  have hspace := hm.space (paragraph (text.drop start)) layout.availWidth
  have hpos := hm.pos (paragraph (text.drop start)) layout.availWidth
  unfold WrapsInside at hinside
  unfold layoutLine placeLine at hline
  dsimp only at hinside hline
  generalize (m.split (paragraph (text.drop start)) layout.availWidth).2 = x at *
  generalize (m.split (paragraph (text.drop start)) layout.availWidth).1 = off at *
  generalize paragraph (text.drop start) = para at *
  have hlenRest : text.length - start = para.length + tail.length := by
    rw [← hlen, hrest, length_append]
  by_cases hnewline : para.length = off ∧ (text.drop start)[off]? = some lf
  · -- A whole paragraph: its newline is skipped.
    rw [if_pos hnewline] at hline
    obtain ⟨rfl, hlf⟩ := hnewline
    have hnext : nextStart text ⟨start, para.length, x⟩ = start + (para.length + 1) :=
      if_pos ((hget _).symm.trans hlf)
    have hlaid' : Laid text (layout.lines ++ [⟨start, para.length, x⟩]) (start + (para.length + 1)) :=
      hnext ▸ .snoc hlaid (by rw [hnext]; exact Nat.lt_add_of_pos_right (Nat.succ_pos _))
    by_cases hall : (text.drop start).length = para.length + 1
    · rw [if_pos hall] at hline
      cases hline
      refine ⟨Nat.succ_pos _, .inl ⟨drop_eq_nil_of_le (Nat.le_of_eq hall), _, _, rfl, ?_, ?_⟩⟩
      · simpa [addLine] using hlaid'
      · show start + (para.length + 1) + 0 = text.length
        omega
    · rw [if_neg hall] at hline
      cases hline
      have hlt : para.length < (text.drop start).length := (List.getElem?_eq_some_iff.mp hlf).1
      refine ⟨Nat.succ_pos _, .inr ⟨fun hnil => hall ?_, by simpa [addLine] using hlaid'⟩⟩
      exact Nat.le_antisymm (drop_eq_nil_iff.mp hnil) hlt
  · rw [if_neg hnewline] at hline
    by_cases hoff : off < para.length
    · -- A soft wrap: the space belongs to the line.
      have hpara : para ≠ [] := ne_nil_of_length_pos (by omega)
      have hspace' : (text.drop start)[off]? = some space := by
        rw [hrest, List.getElem?_append_left hoff]
        exact hspace hoff
      have hwrap : wrapAt (text.drop start) off = off + 1 := by
        unfold wrapAt
        rw [lastSpace_of_space (hpos hpara) hspace']
        rfl
      rw [if_pos (by omega), hwrap] at hline
      cases hline
      refine ⟨Nat.succ_pos _, ?_⟩
      by_cases hend : (text.drop start).drop (off + 1) = []
      · refine .inl ⟨hend, _, _, rfl, by simpa [addLine] using hlaid, ?_⟩
        have hle' := drop_eq_nil_iff.mp hend
        show start + (off + 1) = text.length
        omega
      · have hnot : text[start + (off + 1)]? ≠ some lf := by
          rw [← hget]
          obtain hlt | heq := Nat.lt_or_eq_of_le (Nat.succ_le_of_lt hoff)
          · rw [hrest, List.getElem?_append_left hlt]
            exact fun hlf => hnone (mem_of_getElem? hlf)
          · have heq : off + 1 = para.length := heq
            rw [heq]
            exact hinside heq
        have hnext : nextStart text ⟨start, off + 1, x⟩ = start + (off + 1) := if_neg hnot
        have hlaid' : Laid text (layout.lines ++ [⟨start, off + 1, x⟩]) (start + (off + 1)) :=
          hnext ▸ .snoc hlaid (by rw [hnext]; exact Nat.lt_add_of_pos_right (Nat.succ_pos _))
        exact .inr ⟨hend, by simpa [addLine] using hlaid'⟩
    · -- The rest of the text.
      obtain rfl : off = para.length := Nat.le_antisymm hle (Nat.le_of_not_lt hoff)
      have htailNil : tail = [] := by
        obtain htail | ⟨behind, rfl⟩ := htail
        · exact htail
        · refine absurd ⟨rfl, ?_⟩ hnewline
          rw [hrest, List.getElem?_append_right (Nat.le_refl _), Nat.sub_self]
          rfl
      subst htailNil
      rw [append_nil] at hrest
      rw [length_nil, Nat.add_zero] at hlenRest
      rw [if_neg (by omega)] at hline
      cases hline
      refine ⟨hpos (hrest ▸ hne), .inl ⟨drop_eq_nil_of_le (by omega), _, _, rfl, ?_, ?_⟩⟩
      · simpa [addLine] using hlaid
      · show start + para.length = text.length
        omega

theorem layoutLines_lines (hlines : layoutLines m n rest start h layout = some (layout', h')) :
    layout.lines <+: layout'.lines := by
  induction n generalizing rest start h layout with
  | zero =>
    cases rest with
    | nil =>
      cases hlines
      exact prefix_rfl
    | cons c rest => cases hlines
  | succ n ih =>
    cases rest with
    | nil =>
      cases hlines
      exact prefix_rfl
    | cons c rest =>
      obtain ⟨l, more, hline, -⟩ := layoutLine_lines m layout (c :: rest) start
      have hmore : layout.lines <+: (layout.layoutLine m (c :: rest) start).1.lines := by
        rw [hline]
        exact prefix_append ..
      unfold layoutLines at hlines
      dsimp only at hlines
      split at hlines
      · cases hlines
        exact hmore
      · exact hmore.trans (ih hlines)

theorem layoutLines_laid (hm : m.Splits) (hlaid : Laid text layout.lines start) (hne : text.drop start ≠ [])
    (hinside : ∀ l ∈ layout'.lines.drop layout.lines.length, WrapsInside m text layout.availWidth l)
    (hlines : layoutLines m n (text.drop start) start h layout = some (layout', h')) :
    Ends text layout'.lines ∨ layout'.overflows = true ∧ ∃ s, Laid text layout'.lines s := by
  induction n generalizing start h layout with
  | zero =>
    obtain ⟨c, rest, hrest⟩ := exists_cons_of_ne_nil hne
    rw [hrest] at hlines
    cases hlines
  | succ n ih =>
    obtain ⟨c, rest, hrest⟩ := exists_cons_of_ne_nil hne
    obtain ⟨l, more, hline, hlstart⟩ := layoutLine_lines m layout (text.drop start) start
    have havail := layoutLine_availWidth m layout (text.drop start) start
    cases hturn : layout.layoutLine m (text.drop start) start with | mk layout₁ bOff =>
    rw [hturn] at hline havail
    rw [hrest] at hlines
    unfold layoutLines at hlines
    rw [← hrest] at hlines
    dsimp only at hlines
    rw [hturn] at hlines
    dsimp only at hlines hline havail
    -- The line of this turn is one of those that are laid.
    have hprefix : layout₁.lines <+: layout'.lines := by
      split at hlines
      · cases hlines
        exact prefix_rfl
      · exact layoutLines_lines hlines
    obtain ⟨behind, hbehind⟩ := hprefix
    have hnew : layout'.lines.drop layout.lines.length = l :: more ++ behind := by
      rw [← hbehind, hline, append_assoc, drop_left]
    have hstart : WrapsInside m text layout.availWidth ⟨start, 0, 0⟩ := by
      have hl := hinside l (by rw [hnew]; exact mem_cons_self)
      unfold WrapsInside at hl ⊢
      rwa [hlstart] at hl
    obtain ⟨hpos, hturn⟩ := layoutLine_laid hm hlaid hne hstart hturn
    rw [drop_drop] at hturn
    split at hlines
    · next hstop =>
      cases hlines
      obtain ⟨-, hends⟩ | ⟨-, hlaid'⟩ := hturn
      · exact .inl hends
      · exact .inr ⟨hstop, _, hlaid'⟩
    · rw [drop_drop] at hlines
      obtain ⟨hnil, hends⟩ | ⟨hne', hlaid'⟩ := hturn
      · rw [hnil] at hlines
        cases n <;>
        · cases hlines
          exact .inl hends
      · refine ih hlaid' hne' (fun l hl => ?_) hlines
        have hsub : layout'.lines.drop layout₁.lines.length ⊆ layout'.lines.drop layout.lines.length := by
          rw [hline, length_append, ← drop_drop]
          exact drop_subset ..
        rw [havail]
        exact hinside l (hsub hl)

/-! ## Passes -/

/-- A pass wraps no line at a space before a newline, and does not make room for its lines by the removal of the
horizontal scrollbar when it has left out others. -/
structure PassSafe (m : Measure) (chars : Bytes) (start : Nat) (layout : TextareaLayout) : Prop where
  inside : ∀ layout' h, layout.layoutFrom m chars start = some (layout', h) →
    ∀ l ∈ layout'.lines.drop start, WrapsInside m chars layout.availWidth l
  kept : ∀ layout' h, layout.layoutFrom m chars start = some (layout', h) → layout'.overflows = true →
    (layout'.removeBarX h).overflows = false → layout'.lines.getLast?.map LineInfo.bEnd = some chars.length

/-- The passes of a reflow. -/
inductive Passes (m : Measure) (chars : Bytes) (start : Nat) (layout : TextareaLayout) :
    Nat → TextareaLayout → Prop where
  | first : Passes m chars start layout start layout
  | again {s : Nat} {layout₁ layout₂ : TextareaLayout} : Passes m chars start layout s layout₁ →
    layout₁.pass m chars s = some (layout₂, true) → Passes m chars start layout 0 layout₂

/-- Where a pass may start: behind lines of this text. -/
structure Starts (chars : Bytes) (start : Nat) (layout : TextareaLayout) : Prop where
  laid : Laid chars (layout.lines.take start) (layout.startOffset start)
  le : start ≤ layout.lines.length
  zero : chars = [] → start = 0
  lt : chars ≠ [] → layout.startOffset start < chars.length

theorem starts_zero (chars : Bytes) (layout : TextareaLayout) : Starts chars 0 layout where
  laid := .nil
  le := Nat.zero_le _
  zero _ := rfl
  lt := length_pos_of_ne_nil

theorem starts_startLine (hends : Ends text layout.lines) (hle : bOff ≤ text'.length)
    (htake : text'.take bOff = text.take bOff) : Starts text' (layout.startLine bOff) layout := by
  have hne : layout.lines ≠ [] := by
    obtain ⟨before, l, hlines, -⟩ := hends
    rw [hlines]
    simp
  obtain ⟨hlt, hbefore, -⟩ := lineAt_spec hne bOff
  unfold startLine
  cases hstart : lineAt layout.lines bOff - 1 with
  | zero => exact starts_zero ..
  | succ k =>
    -- The line of the change and the one before it.
    have hat : lineAt layout.lines bOff = k + 2 := by omega
    rw [hat] at hlt hbefore
    have hl := List.getElem?_eq_getElem (Nat.lt_of_succ_lt hlt)
    have hl' := List.getElem?_eq_getElem hlt
    have hoff : layout.startOffset (k + 1) = layout.lines[k + 1].bStart := by
      unfold startOffset
      rw [if_neg (Nat.succ_ne_zero k), hl]
      rfl
    have hstart := hends.lt hl hl'
    have hchange := hbefore (k + 1) _ (Nat.le_refl _) hl'
    rw [← hoff] at hstart
    refine ⟨?_, by omega, fun hnil => ?_, fun _ => by omega⟩
    · rw [hoff]
      exact (hends.take hl).congr (by omega) htake
    · rw [hnil, length_nil] at hle
      omega

theorem layoutFrom_ends (hm : m.Splits) (hstarts : Starts text start layout)
    (hinside : ∀ l ∈ layout'.lines.drop start, WrapsInside m text layout.availWidth l)
    (hfrom : layout.layoutFrom m text start = some (layout', h)) :
    Ends text layout'.lines ∨ layout'.overflows = true ∧ ∃ s, Laid text layout'.lines s := by
  unfold layoutFrom at hfrom
  dsimp only at hfrom
  by_cases hnil : text = []
  · obtain rfl := hstarts.zero hnil
    rw [if_pos hnil, hnil, drop_nil] at hfrom
    cases hfrom
    exact .inl ⟨[], ⟨0, 0, 0⟩, rfl, .nil, by rw [hnil]; rfl⟩
  · rw [if_neg hnil] at hfrom
    have hskipped : (layout.lines.take start).length = start := length_take_of_le hstarts.le
    have hne : text.drop (layout.startOffset start) ≠ [] := by
      rw [ne_eq, drop_eq_nil_iff]
      exact Nat.not_le_of_lt (hstarts.lt hnil)
    have hlaid : Laid text { layout with lines := layout.lines.take start }.lines (layout.startOffset start) :=
      hstarts.laid
    refine layoutLines_laid hm hlaid hne ?_ hfrom
    show ∀ l ∈ layout'.lines.drop (layout.lines.take start).length, _
    rw [hskipped]
    exact hinside

theorem removeBarX_lines (layout : TextareaLayout) (h : Int) : (layout.removeBarX h).lines = layout.lines := by
  unfold removeBarX
  split <;> rfl

theorem pass_ends (hm : m.Splits) (hstarts : Starts text start layout) (hsafe : PassSafe m text start layout)
    (hpass : layout.pass m text start = some (layout', false)) : Ends text layout'.lines := by
  obtain ⟨⟨layout₁, h⟩, hfrom, hbars⟩ := Option.map_eq_some_iff.mp hpass
  unfold setBars at hbars
  dsimp only at hbars
  split at hbars
  · cases hbars
  · next hfits =>
    split at hbars
    · cases hbars
    · cases hbars
      rw [removeBarX_lines]
      obtain hends | ⟨hover, s, hlaid⟩ := layoutFrom_ends hm hstarts (hsafe.inside _ _ hfrom) hfrom
      · exact hends
      · have hlast := hsafe.kept _ _ hfrom hover (Bool.eq_false_iff.mpr hfits)
        generalize layout₁.lines = lines at hlaid hlast
        cases hlaid with
        | nil => cases hlast
        | snoc hlaid hlt =>
          rw [List.getLast?_concat] at hlast
          exact ⟨_, _, rfl, hlaid, Option.some.inj hlast⟩

theorem passes_ends (hm : m.Splits) (hstarts : Starts text start layout)
    (hsafe : ∀ s layout₁, Passes m text start layout s layout₁ → PassSafe m text s layout₁)
    (hpasses : passes m text n start layout = some layout') : Ends text layout'.lines := by
  -- The passes that are left are passes of this reflow.
  suffices hall : ∀ s layout₁, Starts text s layout₁ → Passes m text start layout s layout₁ →
      passes m text n s layout₁ = some layout' → Ends text layout'.lines from hall _ _ hstarts .first hpasses
  clear hpasses hstarts
  induction n with
  | zero => exact fun s layout₁ _ _ h => nomatch h
  | succ n ih =>
    intro s layout₁ hstarts hreached hpasses
    obtain ⟨⟨layout₂, restart⟩, hpass, hrest⟩ := Option.bind_eq_some_iff.mp hpasses
    cases restart with
    | true => exact ih 0 layout₂ (starts_zero ..) (.again hreached hpass) hrest
    | false =>
      cases hrest
      exact pass_ends hm hstarts (hsafe _ _ hreached) hpass

theorem passSafe_nil (m : Measure) (layout : TextareaLayout) : PassSafe m [] 0 layout := by
  have hfrom {layout' : TextareaLayout} {h : Int} (hsome : layout.layoutFrom m [] 0 = some (layout', h)) :
      layout'.lines = [⟨0, 0, 0⟩] := by
    cases hsome
    rfl
  refine ⟨fun layout' h hsome l hl => ?_, fun layout' h hsome _ _ => ?_⟩
  · unfold WrapsInside
    intro rest para _ hlf
    have hnil : rest = [] := drop_nil
    rw [hnil] at hlf
    cases hlf
  · rw [hfrom hsome]
    rfl

end TextareaLayout

/-! ## Runs -/

open TextareaLayout

/-- The text that a call leaves and the place of the change, where the lines are laid out anew. -/
def ReflowOp.change (C : Charset) (box : TextareaBox) : ReflowOp → Option (Textarea × Nat)
  | setText text => some (box.ta.setText C text, 0)
  | replaceText bStart bEnd rep addToClipboard =>
    if box.ta.readonly ∨ rep = none then none
    else (box.ta.replaceText C bStart bEnd rep addToClipboard).map fun (ta, _) =>
      (ta, min bStart (box.ta.shown.len - 1))

/-- Each pass over the lines is safe. -/
def ReflowOp.Safe (C : Charset) (m : Measure) (op : ReflowOp) (box : TextareaBox) : Prop :=
  ∀ ta bStart, op.change C box = some (ta, bStart) →
    ∀ s layout, Passes m ta.text.chars (box.layout.startLine bStart) box.layout s layout →
      PassSafe m ta.text.chars s layout

namespace TextareaBox

variable {C : Charset} {m : Measure} {box box' : TextareaBox} {op : ReflowOp}

/-- A textarea of several lines with a line for each place of the text. -/
structure Inv (box : TextareaBox) : Prop where
  plain : box.ta.Plain
  multiline : box.ta.multiline = true
  ends : Ends box.ta.text.chars box.layout.lines

theorem reflow_ends {n bStart : Nat} {ta : Textarea} {layout layout' : TextareaLayout} (hm : m.Splits)
    (hmulti : ta.multiline = true) (hstarts : Starts ta.text.chars (layout.startLine bStart) layout)
    (hsafe : ∀ s layout₁, Passes m ta.text.chars (layout.startLine bStart) layout s layout₁ →
      PassSafe m ta.text.chars s layout₁)
    (hreflow : layout.reflow m n ta bStart = some layout') : Ends ta.text.chars layout'.lines := by
  unfold reflow reflowMultiline at hreflow
  rw [if_pos hmulti] at hreflow
  exact passes_ends hm hstarts hsafe (Option.ite_none_left_eq_some.mp hreflow).2

theorem chars_append {ta : Textarea} {p q : Bytes} (hdata : ta.text.data = p ++ q) (hne : q ≠ []) :
    p.length ≤ ta.text.chars.length ∧ ta.text.chars.take p.length = p := by
  have hpos := length_pos_of_ne_nil hne
  unfold TextareaUtf8.chars TextareaUtf8.len
  rw [hdata, length_take, length_append, take_take]
  refine ⟨by omega, ?_⟩
  rw [Nat.min_eq_left (by omega), take_left]

theorem Inv.exec (hi : box.Inv) (hm : m.Splits) (hsafe : op.Safe C m box) {n : Nat}
    (hexec : op.exec C m n box = some box') : box'.Inv := by
  cases op with
  | setText text =>
    obtain ⟨layout, hreflow, hbox⟩ := Option.bind_eq_some_iff.mp hexec
    cases hbox
    obtain ⟨hplain, hmulti, -⟩ := Textarea.Plain.setText (C := C) hi.plain.isPassword text
    have hmulti := hmulti.trans hi.multiline
    have hstarts := starts_startLine hi.ends (Nat.zero_le (box.ta.setText C text).text.chars.length) rfl
    exact ⟨hplain, hmulti, reflow_ends hm hmulti hstarts (hsafe _ _ rfl) hreflow⟩
  | replaceText bStart bEnd rep clipboard =>
    obtain ⟨⟨box₁, byteDelta⟩, hreplace, hbox⟩ := Option.map_eq_some_iff.mp hexec
    obtain rfl : box₁ = box' := hbox
    obtain ⟨⟨ta, byteDelta₁⟩, hta, hreflow⟩ := Option.bind_eq_some_iff.mp hreplace
    obtain ⟨hplain, hmulti, -, hchange⟩ := hi.plain.replaceText hta
    have hmulti := hmulti.trans hi.multiline
    dsimp only at hreflow
    obtain ⟨hkeeps, htext⟩ | ⟨r, p, del, q, rfl, hreadonly, hdata, hne, hp, -, hdata'⟩ := hchange
    · rw [if_pos hkeeps] at hreflow
      cases hreflow
      refine ⟨hplain, hmulti, ?_⟩
      show Ends ta.text.chars box.layout.lines
      rw [htext]
      exact hi.ends
    · have hnot : ¬ (box.ta.readonly = true ∨ some r = none) := by simp [hreadonly]
      rw [if_neg hnot] at hreflow
      have hshown := box.ta.shown_of_text hi.plain.isPassword
      have hclamp : (if bStart > box.ta.shown.len - 1 then box.ta.shown.len - 1 else bStart) = p.length := by
        rw [hshown, hp]
        split <;> omega
      rw [hclamp] at hreflow
      obtain ⟨layout, hlines, hbox⟩ := Option.bind_eq_some_iff.mp hreflow
      cases hbox
      -- The text is the same before the change.
      obtain ⟨-, hold⟩ := chars_append hdata (by simp [hne])
      have hnormal := hi.plain.normal
      rw [hdata] at hnormal
      obtain ⟨ins, hins, -⟩ := normalise_append (normal_append.mp (normal_append.mp hnormal).2).2 r
      rw [hins] at hdata'
      obtain ⟨hle, hnew⟩ := chars_append hdata' (by simp [hne])
      have hstarts := starts_startLine hi.ends hle (hnew.trans hold.symm)
      refine ⟨hplain, hmulti, reflow_ends hm hmulti hstarts ?_ hlines⟩
      apply hsafe
      refine (if_neg hnot).trans ?_
      rw [hta, hshown, ← hp]
      rfl

theorem Inv.create {n : Nat} {readonly : Bool} {layout : TextareaLayout} (hm : m.Splits)
    (hcreate : TextareaBox.create m n true readonly false layout = some box) : box.Inv := by
  obtain ⟨layout', hreflow, hbox⟩ := Option.bind_eq_some_iff.mp hcreate
  cases hbox
  have hnil : Normal true [0] := ⟨by decide, fun _ => by decide⟩
  refine ⟨⟨rfl, hnil, cons_ne_nil _ _⟩, rfl, reflow_ends hm rfl (starts_zero ..) ?_ hreflow⟩
  intro s layout₁ hpasses
  have hzero : s = 0 := by
    cases hpasses <;> rfl
  rw [hzero]
  exact passSafe_nil m layout₁

end TextareaBox

end Nami.Desktop
