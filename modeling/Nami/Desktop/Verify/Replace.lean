import Nami.Desktop.Textarea

/-!
# Normalised line endings

What the loop of `textarea_normalise_text` does to the text that it is called for: each of CRLF, CR and LF becomes
one newline, which is a space in a textarea of a single line. Only a CR at the end of that text that stands before
an LF is taken together with what follows.
-/

namespace Nami.Desktop

open List

/-- What stands for the end of a line. -/
def newline (multi : Bool) : UInt8 := if multi then lf else space

/-- Text with one newline for each line ending. -/
def normalise (multi : Bool) : Bytes → Bytes
  | [] => []
  | c :: rest =>
    if c = cr then if rest.head? = some lf then normalise multi rest else newline multi :: normalise multi rest
    else if c = lf then newline multi :: normalise multi rest
    else c :: normalise multi rest

/-- Text without CR, and without LF in a single line. -/
def Normal (multi : Bool) (text : Bytes) : Prop := cr ∉ text ∧ (multi = false → lf ∉ text)

variable {multi : Bool} {c : UInt8} {p q rep rest text : Bytes} {u : Int}

theorem newline_normal (multi : Bool) : newline multi ≠ cr ∧ (multi = false → newline multi ≠ lf) := by
  cases multi <;> decide

theorem normal_nil : Normal multi [] := ⟨not_mem_nil, fun _ => not_mem_nil⟩

theorem normal_cons : Normal multi (c :: text) ↔ (c ≠ cr ∧ (multi = false → c ≠ lf)) ∧ Normal multi text := by
  unfold Normal
  simp only [mem_cons, not_or]
  constructor
  · rintro ⟨⟨hcr, hcrs⟩, hlf⟩
    exact ⟨⟨Ne.symm hcr, fun hm => Ne.symm (hlf hm).1⟩, hcrs, fun hm => (hlf hm).2⟩
  · rintro ⟨⟨hcr, hlf⟩, hcrs, hlfs⟩
    exact ⟨⟨Ne.symm hcr, hcrs⟩, fun hm => ⟨Ne.symm (hlf hm), hlfs hm⟩⟩

theorem normal_append : Normal multi (p ++ q) ↔ Normal multi p ∧ Normal multi q := by
  induction p with
  | nil => exact ⟨fun h => ⟨normal_nil, h⟩, fun h => h.2⟩
  | cons c p ih =>
    rw [cons_append, normal_cons, normal_cons, ih]
    exact and_assoc.symm

theorem normal_normalise (multi : Bool) (text : Bytes) : Normal multi (normalise multi text) := by
  induction text with
  | nil => exact normal_nil
  | cons c rest ih =>
    unfold normalise
    split
    · split
      · exact ih
      · exact normal_cons.mpr ⟨newline_normal multi, ih⟩
    · next hcr =>
      split
      · exact normal_cons.mpr ⟨newline_normal multi, ih⟩
      · next hlf => exact normal_cons.mpr ⟨⟨hcr, fun _ => hlf⟩, ih⟩

theorem normalise_of_normal (h : Normal multi text) : normalise multi text = text := by
  induction text with
  | nil => rfl
  | cons c rest ih =>
    obtain ⟨⟨hcr, hlf⟩, hrest⟩ := normal_cons.mp h
    unfold normalise
    rw [if_neg hcr, ih hrest]
    split
    · next heq =>
      subst heq
      cases multi with
      | true => rfl
      | false => exact absurd rfl (hlf rfl)
    · rfl

theorem normalise_append (hq : Normal multi q) (rep : Bytes) :
    ∃ ins, normalise multi (rep ++ q) = ins ++ q ∧ ins.length ≤ rep.length ∧ Normal multi ins := by
  induction rep with
  | nil => exact ⟨[], normalise_of_normal hq, Nat.le_refl 0, normal_nil⟩
  | cons c rep ih =>
    obtain ⟨ins, heq, hlength, hins⟩ := ih
    rw [cons_append]
    unfold normalise
    rw [heq]
    split
    · split
      · exact ⟨ins, rfl, Nat.le_succ_of_le hlength, hins⟩
      · exact ⟨newline multi :: ins, rfl, Nat.succ_le_succ hlength, normal_cons.mpr ⟨newline_normal multi, hins⟩⟩
    · next hcr =>
      split
      · exact ⟨newline multi :: ins, rfl, Nat.succ_le_succ hlength, normal_cons.mpr ⟨newline_normal multi, hins⟩⟩
      · next hlf => exact ⟨c :: ins, rfl, Nat.succ_le_succ hlength, normal_cons.mpr ⟨⟨hcr, fun _ => hlf⟩, hins⟩⟩

/-! ## The loop -/

namespace TextareaUtf8

theorem byteAt_append : byteAt ⟨p ++ c :: rest, u⟩ p.length = c := by
  unfold byteAt
  rw [getD_eq_getElem?_getD, List.getElem?_append_right (Nat.le_refl _), Nat.sub_self]
  rfl

theorem byteAt_succ : byteAt ⟨p ++ c :: rest, u⟩ (p.length + 1) = rest.head?.getD 0 := by
  unfold byteAt
  rw [getD_eq_getElem?_getD, List.getElem?_append_right (Nat.le_succ _), List.head?_eq_getElem?]
  simp

theorem byteAt_past (t : TextareaUtf8) {pos : Nat} (h : t.len ≤ pos) : t.byteAt pos = 0 := by
  unfold byteAt
  rw [getD_eq_getElem?_getD, List.getElem?_eq_none h]
  rfl

theorem normaliseText_past (t : TextareaUtf8) (n : Nat) {pos : Nat} (h : t.len ≤ pos) :
    t.normaliseText multi pos n = t := by
  induction n generalizing pos with
  | zero => rfl
  | succ n ih =>
    unfold normaliseText
    have hcr : t.byteAt pos ≠ cr := by
      rw [t.byteAt_past h]
      decide
    have hlf : t.byteAt pos ≠ lf := by
      rw [t.byteAt_past h]
      decide
    unfold replaceCr replaceLf
    rw [if_neg hcr, if_neg fun hand => hlf hand.2]
    exact ih (Nat.le_succ_of_le h)

theorem set_append (p rest : Bytes) (c d : UInt8) : (p ++ c :: rest).set p.length d = p ++ d :: rest := by
  rw [set_append_right _ _ (Nat.le_refl _), Nat.sub_self, set_cons_zero]

theorem eraseIdx_append (p rest : Bytes) (c : UInt8) : (p ++ c :: rest).eraseIdx p.length = p ++ rest := by
  rw [eraseIdx_append_of_length_le (Nat.le_refl _), Nat.sub_self, eraseIdx_cons_zero]

theorem replaceLf_append (multi : Bool) (p : Bytes) (d : UInt8) (rest : Bytes) (u : Int) :
    (TextareaUtf8.mk (p ++ d :: rest) u).replaceLf multi p.length =
      ⟨p ++ (if d = lf then newline multi else d) :: rest, u⟩ := by
  unfold replaceLf newline
  rw [byteAt_append]
  by_cases hd : d = lf
  · subst hd
    cases multi with
    | true => rfl
    | false =>
      rw [if_pos ⟨rfl, rfl⟩, if_pos rfl, set_append]
      rfl
  · rw [if_neg fun h => hd h.2, if_neg hd]

theorem normaliseStep_cons (multi : Bool) (p : Bytes) (c : UInt8) (rest : Bytes) (u : Int) :
    ∃ d rest', ((TextareaUtf8.mk (p ++ c :: rest) u).replaceCr p.length).replaceLf multi p.length =
        ⟨p ++ d :: rest', u - (rest.length - rest'.length)⟩ ∧
      normalise multi (c :: rest) = d :: normalise multi rest' ∧
      (rest' = rest ∨ c = cr ∧ rest = lf :: rest') := by
  have hkeep : u - ((rest.length : Int) - rest.length) = u := by omega
  unfold replaceCr
  rw [byteAt_append]
  by_cases hcr : c = cr
  · subst hcr
    rw [if_pos rfl]
    by_cases hhead : rest.head? = some lf
    · -- CRLF: the CR goes.
      obtain ⟨rest', rfl⟩ := List.head?_eq_some_iff.mp hhead
      have hlen : p.length + 1 ≤ len ⟨p ++ cr :: lf :: rest', u⟩ := by
        show p.length + 1 ≤ (p ++ cr :: lf :: rest').length
        rw [List.length_append, length_cons, length_cons]
        omega
      have hu : u - (((lf :: rest').length : Int) - rest'.length) = u - 1 := by
        rw [length_cons]
        omega
      rw [if_pos ⟨hlen, byteAt_succ⟩]
      refine ⟨newline multi, rest', ?_, rfl, .inr ⟨rfl, rfl⟩⟩
      dsimp only
      rw [eraseIdx_append, replaceLf_append, if_pos rfl, hu]
    · -- A CR alone becomes an LF.
      have hnext : byteAt ⟨p ++ cr :: rest, u⟩ (p.length + 1) ≠ lf := by
        rw [byteAt_succ]
        cases rest with
        | nil => decide
        | cons d rest => exact fun h => hhead (congrArg some h)
      rw [if_neg fun h => hnext h.2]
      refine ⟨newline multi, rest, ?_, ?_, .inl rfl⟩
      · dsimp only
        rw [set_append, replaceLf_append, if_pos rfl, hkeep]
      · rw [normalise, if_pos rfl, if_neg hhead]
  · rw [if_neg hcr]
    refine ⟨if c = lf then newline multi else c, rest, ?_, ?_, .inl rfl⟩
    · rw [replaceLf_append, hkeep]
    · rw [normalise, if_neg hcr]
      split <;> rfl

theorem normaliseText_append (hq : Normal multi q) {n : Nat} (hn : rep.length ≤ n) (p : Bytes) (u : Int) :
    (TextareaUtf8.mk (p ++ (rep ++ q)) u).normaliseText multi p.length n =
      ⟨p ++ normalise multi (rep ++ q), u - ((rep ++ q).length - (normalise multi (rep ++ q)).length)⟩ := by
  induction n generalizing p rep q u with
  | zero =>
    obtain rfl := List.length_eq_zero_iff.mp (Nat.le_zero.mp hn)
    rw [nil_append, normalise_of_normal hq]
    unfold normaliseText
    congr 1
    omega
  | succ n ih =>
    cases hx : rep ++ q with
    | nil =>
      rw [normaliseText_past]
      · show _ = TextareaUtf8.mk (p ++ []) (u - (0 - 0))
        congr 1
        omega
      · show (p ++ []).length ≤ p.length
        rw [append_nil]
    | cons c rest =>
      obtain ⟨d, rest', hstep, hnormal, hrest⟩ := normaliseStep_cons multi p c rest u
      -- What is left is again text that was inserted and normal text.
      have hsplit : ∃ rep' q', rest' = rep' ++ q' ∧ Normal multi q' ∧ rep'.length ≤ n := by
        cases rep with
        | nil =>
          obtain rfl : q = c :: rest := hx
          obtain ⟨⟨hcr, -⟩, hrestNormal⟩ := normal_cons.mp hq
          obtain rfl | ⟨hc, -⟩ := hrest
          · exact ⟨[], rest', rfl, hrestNormal, Nat.zero_le n⟩
          · exact absurd hc hcr
        | cons b rep =>
          cases hx
          have hn' := Nat.le_of_succ_le_succ hn
          obtain rfl | ⟨-, hlf⟩ := hrest
          · exact ⟨rep, q, rfl, hq, hn'⟩
          · cases rep with
            | nil =>
              obtain rfl : q = lf :: rest' := hlf
              exact ⟨[], rest', rfl, (normal_cons.mp hq).2, Nat.zero_le n⟩
            | cons b' rep =>
              cases hlf
              exact ⟨rep, q, rfl, hq, Nat.le_of_succ_le hn'⟩
      obtain ⟨rep', q', rfl, hq', hn'⟩ := hsplit
      have hsnoc : p ++ d :: (rep' ++ q') = (p ++ [d]) ++ (rep' ++ q') := (List.append_assoc p [d] _).symm
      have hlength : p.length + 1 = (p ++ [d]).length := by
        rw [List.length_append]
        rfl
      unfold normaliseText
      rw [hstep, hsnoc, hlength, ih hq' hn', hnormal]
      rw [List.append_assoc]
      congr 1
      rw [length_cons, length_cons]
      omega

end TextareaUtf8

end Nami.Desktop

/-! ## The replacement of text

What `textarea_replace_text_internal` makes of the text where it is shown: what stands before and behind stays, and
what is put between them is normalised.
-/

namespace Nami.Desktop

namespace Textarea

variable {C : Charset} {ta ta' : Textarea} {p q del : Bytes}

theorem exists_append {data : Bytes} {bStart bEnd : Nat} (hle : bStart ≤ bEnd) (hend : bEnd < data.length) :
    ∃ p del q, data = p ++ (del ++ q) ∧ bStart = p.length ∧ bEnd = p.length + del.length ∧ q ≠ [] := by
  refine ⟨data.take bStart, (data.drop bStart).take (bEnd - bStart), data.drop bEnd, ?_, ?_, ?_, ?_⟩
  · have hdrop : data.drop bEnd = (data.drop bStart).drop (bEnd - bStart) := by
      rw [List.drop_drop, Nat.add_sub_cancel' hle]
    rw [hdrop, List.take_append_drop, List.take_append_drop]
  · rw [List.length_take_of_le (by omega)]
  · rw [List.length_take_of_le (by omega), List.length_take_of_le (by rw [List.length_drop]; omega)]
    omega
  · apply List.ne_nil_of_length_pos
    rw [List.length_drop]
    omega

theorem shown_of_text (ta : Textarea) (h : ta.isPassword = false) : ta.shown = ta.text := by
  unfold shown
  rw [h]
  rfl

theorem obscure_of_text (ta : Textarea) (h : ta.isPassword = false) : ta.obscure = ta := by
  unfold obscure
  rw [if_neg]
  rintro ⟨hpassword, -⟩
  rw [h] at hpassword
  cases hpassword

/-- The textarea with other text, and by how much it got longer. -/
def withText (ta : Textarea) (data : Bytes) (u : Int) : Textarea × Int :=
  ({ ta with text := ⟨data, u⟩ }, (data.length : Int) - ta.text.data.length)

theorem byteDelta_text (h : ta.isPassword = false) (data : Bytes) (u : Int) :
    (({ ta with text := ⟨data, u⟩ } : Textarea).obscure, byteDelta { ta with text := ⟨data, u⟩ } ta) =
      ta.withText data u := by
  rw [obscure_of_text { ta with text := ⟨data, u⟩ } h]
  unfold byteDelta
  rw [if_neg (by simp [h])]
  rfl

theorem insertText_eq (hreadonly : ta.readonly = false) (hpassword : ta.isPassword = false)
    (htext : ta.text.data = p ++ q) (hq : Normal ta.multiline q) (hne : q ≠ []) (rep : Bytes) :
    ∃ u, ta.insertText C rep p.length = ta.withText (p ++ normalise ta.multiline (rep ++ q)) u := by
  have hpos := List.length_pos_of_ne_nil hne
  have hlast : ¬ p.length > ta.text.len - 1 := by
    unfold TextareaUtf8.len
    rw [htext, List.length_append]
    omega
  have hnot : ¬ ta.isPassword = true := Bool.eq_false_iff.mp hpassword
  unfold insertText
  rw [if_neg (by simp [hreadonly])]
  dsimp only
  rw [if_neg hnot, if_neg hlast]
  rw [htext, List.take_left, List.drop_left, List.append_assoc,
    TextareaUtf8.normaliseText_append hq (Nat.le_refl rep.length)]
  exact ⟨_, byteDelta_text hpassword ..⟩

theorem replaceBytes_eq (hpassword : ta.isPassword = false) (htext : ta.text.data = p ++ (del ++ q))
    (hq : Normal ta.multiline q) (rep : Bytes) :
    ∃ u, ta.replaceBytes C p.length (p.length + del.length) rep =
      ta.withText (p ++ normalise ta.multiline (rep ++ q)) u := by
  have hdrop : ta.text.data.drop (p.length + del.length) = q := by
    rw [htext, ← List.append_assoc, List.drop_left' List.length_append]
  have hnot : ¬ ta.isPassword = true := Bool.eq_false_iff.mp hpassword
  unfold replaceBytes
  rw [if_neg hnot]
  dsimp only
  rw [hdrop, htext, List.take_left, List.append_assoc,
    TextareaUtf8.normaliseText_append hq (Nat.le_refl rep.length)]
  exact ⟨_, byteDelta_text hpassword ..⟩

theorem replaceTextInternal_eq (ta : Textarea) (hreadonly : ta.readonly = false) (hpassword : ta.isPassword = false)
    (htext : ta.text.data = p ++ (del ++ q)) (hq : Normal ta.multiline q) (hne : q ≠ []) (rep : Bytes)
    (clipboard : Bool) : ∃ u, ta.replaceTextInternal C p.length (p.length + del.length) (some rep) clipboard =
      some (ta.withText (p ++ normalise ta.multiline (rep ++ q)) u) := by
  have hpos := List.length_pos_of_ne_nil hne
  have hlen : ta.text.len = p.length + (del.length + q.length) := by
    unfold TextareaUtf8.len
    rw [htext, List.length_append, List.length_append]
  have hshown := ta.shown_of_text hpassword
  have hstart : ¬ p.length > p.length + (del.length + q.length) - 1 := by omega
  have hend : ¬ p.length + del.length > p.length + (del.length + q.length) - 1 := by omega
  unfold replaceTextInternal
  rw [if_neg (by simp [hreadonly]), hshown, hlen]
  dsimp only
  rw [if_neg hstart, if_neg hend]
  split
  · next hsame =>
    obtain rfl : del = [] := List.length_eq_zero_iff.mp (by omega)
    obtain ⟨u, heq⟩ := insertText_eq (C := C) (q := q) hreadonly hpassword htext hq hne rep
    exact ⟨u, congrArg some heq⟩
  · rw [if_neg (by omega)]
    obtain ⟨u, heq⟩ := replaceBytes_eq (C := C) hpassword htext hq rep
    exact ⟨u, congrArg some heq⟩

theorem replaceTextInternal_none (ta : Textarea) (hreadonly : ta.readonly = false) (hpassword : ta.isPassword = false)
    {bStart bEnd : Nat} (hle : bStart ≤ bEnd) (hend : bEnd < ta.text.len) (clipboard : Bool) :
    ta.replaceTextInternal C bStart bEnd none clipboard = some (ta, 0) := by
  have hshown := ta.shown_of_text hpassword
  have hstart : ¬ bStart > ta.text.len - 1 := by omega
  have hend' : ¬ bEnd > ta.text.len - 1 := by omega
  unfold replaceTextInternal
  rw [if_neg (by simp [hreadonly]), hshown]
  dsimp only
  rw [if_neg hstart, if_neg hend', if_neg (Nat.not_lt_of_le hle)]

theorem replaceTextInternal_clamp (ta : Textarea) (hpassword : ta.isPassword = false) (bStart bEnd : Nat)
    (rep : Option Bytes) (clipboard : Bool) :
    ta.replaceTextInternal C bStart bEnd rep clipboard =
      ta.replaceTextInternal C (min bStart (ta.text.len - 1)) (min bEnd (ta.text.len - 1)) rep clipboard := by
  have hmin (b last : Nat) : (if b > last then last else b) = min b last := by
    split <;> omega
  unfold replaceTextInternal
  rw [ta.shown_of_text hpassword]
  dsimp only
  simp only [hmin, Nat.min_assoc, Nat.min_self]

/-- Text that is shown as it is and is normal, with a NUL at least. -/
structure Plain (ta : Textarea) : Prop where
  isPassword : ta.isPassword = false
  normal : Normal ta.multiline ta.text.data
  ne_nil : ta.text.data ≠ []

theorem Plain.replaceTextInternal (h : ta.Plain) (hreadonly : ta.readonly = false) {bStart bEnd : Nat} {rep : Bytes}
    {clipboard : Bool} {byteDelta : Int}
    (hsome : ta.replaceTextInternal C bStart bEnd (some rep) clipboard = some (ta', byteDelta)) :
    ∃ p del q u, ta.text.data = p ++ (del ++ q) ∧ q ≠ [] ∧ p.length = min bStart (ta.text.len - 1) ∧
      p.length + del.length = min bEnd (ta.text.len - 1) ∧
      (ta', byteDelta) = ta.withText (p ++ normalise ta.multiline (rep ++ q)) u := by
  have hpos : 0 < ta.text.len := List.length_pos_of_ne_nil h.ne_nil
  rw [ta.replaceTextInternal_clamp h.isPassword] at hsome
  have hle : min bStart (ta.text.len - 1) ≤ min bEnd (ta.text.len - 1) := by
    by_contra hlt
    have hone : ¬ (ta.readonly = true ∧ (!((some rep).isNone && clipboard)) = true) := by simp [hreadonly]
    have hstart : ¬ min bStart (ta.text.len - 1) > ta.text.len - 1 := Nat.not_lt_of_le (Nat.min_le_right ..)
    have hend : ¬ min bEnd (ta.text.len - 1) > ta.text.len - 1 := Nat.not_lt_of_le (Nat.min_le_right ..)
    unfold Textarea.replaceTextInternal at hsome
    rw [if_neg hone, ta.shown_of_text h.isPassword] at hsome
    dsimp only at hsome
    rw [if_neg hstart, if_neg hend, if_neg fun heq => hlt (Nat.le_of_eq heq), if_pos (Nat.lt_of_not_le hlt)] at hsome
    cases hsome
  obtain ⟨p, del, q, htext, hp, hdel, hne⟩ := exists_append hle (show _ < ta.text.data.length by
    change _ < ta.text.len
    omega)
  have hnormal := h.normal
  rw [htext] at hnormal
  obtain ⟨u, heq⟩ := replaceTextInternal_eq (C := C) ta hreadonly h.isPassword htext
    (normal_append.mp (normal_append.mp hnormal).2).2 hne rep clipboard
  rw [hp, hdel] at hsome
  exact ⟨p, del, q, u, htext, hne, hp.symm, hdel.symm, Option.some.inj (hsome.symm.trans heq)⟩

theorem Plain.withText (h : ta.Plain) {rep : Bytes} (htext : ta.text.data = p ++ (del ++ q)) (hne : q ≠ []) (u : Int) :
    (ta.withText (p ++ normalise ta.multiline (rep ++ q)) u).1.Plain where
  isPassword := h.isPassword
  normal := by
    have hnormal := h.normal
    rw [htext] at hnormal
    exact normal_append.mpr ⟨(normal_append.mp hnormal).1, normal_normalise ..⟩
  ne_nil := by
    have hnormal := h.normal
    rw [htext] at hnormal
    obtain ⟨ins, heq, -⟩ := normalise_append (normal_append.mp (normal_append.mp hnormal).2).2 rep
    show p ++ normalise ta.multiline (rep ++ q) ≠ []
    rw [heq]
    simp [hne]

theorem replaceTextInternal_keeps {bStart bEnd : Nat} {rep : Option Bytes} {clipboard : Bool} {byteDelta : Int}
    (hkeeps : ta.readonly = true ∨ rep = none)
    (hsome : ta.replaceTextInternal C bStart bEnd rep clipboard = some (ta', byteDelta)) : ta' = ta := by
  have hsame {byteDelta' : Int} (h : some (ta, byteDelta') = some (ta', byteDelta)) : ta' = ta :=
    (congrArg Prod.fst (Option.some.inj h)).symm
  unfold replaceTextInternal at hsome
  cases rep with
  | none =>
    split at hsome
    · exact hsame hsome
    · exact hsame (Option.ite_none_left_eq_some.mp hsome).2
  | some rep =>
    have hreadonly := hkeeps.resolve_right (Option.some_ne_none rep)
    rw [if_pos ⟨hreadonly, rfl⟩] at hsome
    exact hsame hsome

theorem Plain.replaceText (h : ta.Plain) {bStart bEnd : Nat} {rep : Option Bytes} {clipboard : Bool} {byteDelta : Int}
    (hsome : ta.replaceText C bStart bEnd rep clipboard = some (ta', byteDelta)) :
    ta'.Plain ∧ ta'.multiline = ta.multiline ∧ ta'.readonly = ta.readonly ∧
      ((ta.readonly = true ∨ rep = none) ∧ ta'.text = ta.text ∨
        ∃ r p del q, rep = some r ∧ ta.readonly = false ∧ ta.text.data = p ++ (del ++ q) ∧ q ≠ [] ∧
          p.length = min bStart (ta.text.len - 1) ∧ p.length + del.length = min bEnd (ta.text.len - 1) ∧
          ta'.text.data = p ++ normalise ta.multiline (r ++ q)) := by
  -- The undo buffer changes nothing else.
  obtain ⟨ta₁, ta₂, hinternal, hsame, htext, hmulti, hreadonly, hpassword⟩ : ∃ ta₁ ta₂ : Textarea,
      ta₁.replaceTextInternal C bStart bEnd rep clipboard = some (ta₂, byteDelta) ∧
      (ta₁.text = ta.text ∧ ta₁.multiline = ta.multiline ∧ ta₁.readonly = ta.readonly ∧
        ta₁.isPassword = ta.isPassword) ∧
      ta'.text = ta₂.text ∧ ta'.multiline = ta₂.multiline ∧ ta'.readonly = ta₂.readonly ∧
      ta'.isPassword = ta₂.isPassword := by
    unfold Textarea.replaceText at hsome
    dsimp only at hsome
    split at hsome
    · obtain ⟨⟨ta₂, byteDelta₂⟩, hinternal, hrecord⟩ := Option.bind_eq_some_iff.mp hsome
      cases hrecord
      exact ⟨_, ta₂, hinternal, ⟨rfl, rfl, rfl, rfl⟩, rfl, rfl, rfl, rfl⟩
    · exact ⟨ta, ta', hsome, ⟨rfl, rfl, rfl, rfl⟩, rfl, rfl, rfl, rfl⟩
  obtain ⟨htext₁, hmulti₁, hreadonly₁, hpassword₁⟩ := hsame
  have hplain : ta₁.Plain := by
    refine ⟨hpassword₁.trans h.isPassword, ?_, ?_⟩
    · rw [htext₁, hmulti₁]
      exact h.normal
    · rw [htext₁]
      exact h.ne_nil
  by_cases hkeeps : ta.readonly = true ∨ rep = none
  · obtain rfl := replaceTextInternal_keeps (hreadonly₁ ▸ hkeeps) hinternal
    refine ⟨⟨hpassword.trans hplain.isPassword, ?_, ?_⟩, hmulti.trans hmulti₁, hreadonly.trans hreadonly₁,
      .inl ⟨hkeeps, htext.trans htext₁⟩⟩
    · rw [hmulti, htext]
      exact hplain.normal
    · rw [htext]
      exact hplain.ne_nil
  · obtain ⟨hwrite, hrep⟩ := not_or.mp hkeeps
    have hwrite := Bool.eq_false_iff.mpr hwrite
    obtain ⟨r, rfl⟩ := Option.ne_none_iff_exists'.mp hrep
    obtain ⟨p, del, q, u, hdata, hne, hp, hdel, heq⟩ := hplain.replaceTextInternal (hreadonly₁.trans hwrite) hinternal
    cases heq
    have hplain' := @Plain.withText _ _ _ _ hplain r hdata hne u
    rw [htext₁] at hdata hp hdel
    refine ⟨⟨hpassword.trans hplain'.isPassword, ?_, ?_⟩, hmulti.trans hmulti₁, hreadonly.trans hreadonly₁,
      .inr ⟨r, p, del, q, rfl, hwrite, hdata, hne, hp, hdel, ?_⟩⟩
    · rw [hmulti, htext]
      exact hplain'.normal
    · rw [htext]
      exact hplain'.ne_nil
    · rw [htext, ← hmulti₁]

theorem Plain.setText (h : ta.isPassword = false) (text : Bytes) :
    (ta.setText C text).Plain ∧ (ta.setText C text).multiline = ta.multiline ∧
      (ta.setText C text).readonly = ta.readonly := by
  have hend : Normal ta.multiline [0] := by
    cases ta.multiline <;> exact ⟨by decide, fun _ => by decide⟩
  have hn : (cstr text).length ≤ (cstr text ++ [0]).length := by
    rw [List.length_append]
    exact Nat.le_add_right ..
  obtain ⟨ins, heq, -⟩ := normalise_append hend (cstr text)
  have hloop (u : Int) := TextareaUtf8.normaliseText_append hend hn [] u
  have hdata : (ta.setText C text).text.data = normalise ta.multiline (cstr text ++ [0]) := by
    unfold Textarea.setText
    dsimp only
    rw [obscure_of_text { ta with
      text := _, undo := { ta.undo with nextDetail := 0, lastDetail := 0 }, edition := ta.edition + 1 } h]
    exact congrArg TextareaUtf8.data (hloop _)
  have hflags : (ta.setText C text).isPassword = false ∧ (ta.setText C text).multiline = ta.multiline ∧
      (ta.setText C text).readonly = ta.readonly := by
    unfold Textarea.setText
    dsimp only
    rw [obscure_of_text { ta with
      text := _, undo := { ta.undo with nextDetail := 0, lastDetail := 0 }, edition := ta.edition + 1 } h]
    exact ⟨h, rfl, rfl⟩
  refine ⟨⟨hflags.1, ?_, ?_⟩, hflags.2⟩
  · rw [hdata, hflags.2.1]
    exact normal_normalise ..
  · rw [hdata, heq]
    simp

end Textarea

/-- Each byte is a character. -/
def bytewise : Charset where
  length := List.length
  next _ off := off + 1
  prev _ off := off - 1

end Nami.Desktop
