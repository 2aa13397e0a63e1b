import Nami.Desktop.Verify.Replace
import Nami.Lib.History

/-!
# Undo and redo

The text of a textarea and its undo buffer are a history of the texts since it was set: each record swaps the
bytes that it has with those in its place in the text. `Swaps` says so of one record, `Represents` of all.
-/

namespace Nami.Desktop

open List

/-! ## The history of a run -/

/-- A replacement that only sets the clipboard. -/
def copies (bStart bEnd : Nat) (rep : Option Bytes) (addToClipboard : Bool) : Bool :=
  decide (bStart ≠ bEnd) && rep.isNone && addToClipboard

/-- The text after a replacement. -/
def edited (multi : Bool) (text : Bytes) (bStart bEnd : Nat) : Option Bytes → Bytes
  | some rep => text.take bStart ++ normalise multi (rep ++ text.drop bEnd)
  | none => text

/-- What a call does to the history of the text. -/
def replay (multi : Bool) (h : Nami.History Bytes) : TextareaOp → Nami.History Bytes
  | .replaceText bStart bEnd rep addToClipboard =>
    if copies bStart bEnd rep addToClipboard then h
    else h.edit (edited multi h.present bStart bEnd rep)
  | .undo => h.undo.getD h
  | .redo => h.redo.getD h
  | .setText text => .start (normalise multi (cstr text ++ [0]))

/-- The history of the text after some calls. -/
def textHistory (multi : Bool) (ops : List TextareaOp) : Nami.History Bytes := ops.foldl (replay multi) (.start [0])

/-- What undo or redo does. -/
def History.request (forward : Bool) (h : Nami.History Bytes) : Option (Nami.History Bytes) :=
  if forward then h.redo else h.undo

/-- The offsets are in the text. -/
def TextareaOp.Valid : TextareaOp → Textarea → Prop
  | .replaceText bStart bEnd _ _, ta => bStart ≤ bEnd ∧ bEnd < ta.text.len
  | _, _ => True

namespace Textarea

/-- A change was recorded since the text was set. -/
def Recorded (ta : Textarea) : Prop := ∃ detail ∈ ta.undo.details, detail.edition = ta.edition

/-- Requests that succeed, one after another. -/
def requests (C : Charset) (forward : Bool) : Nat → Textarea → Option Textarea
  | 0, ta => some ta
  | k + 1, ta =>
    match ta.undoRedo C forward with
    | some (ta, some _) => requests C forward k ta
    | _ => none

/-- Undo takes an edit back, and redo takes back what undo did. -/
structure Inverse (C : Charset) (ta : Textarea) : Prop where
  edit : ∀ bStart bEnd rep clipboard, bStart ≤ bEnd → bEnd < ta.text.len →
    copies bStart bEnd rep clipboard = false → ∃ ta' byteDelta ta'' caret,
      ta.replaceText C bStart bEnd rep clipboard = some (ta', byteDelta) ∧
      ta'.undoRedo C false = some (ta'', some caret) ∧ ta''.text.data = ta.text.data
  undos : ∀ k ta', ta.requests C false k = some ta' →
    ∃ ta'', ta'.requests C true k = some ta'' ∧ ta''.text.data = ta.text.data

/-- A request applies a record of the text that was set last, reads none where there is nothing to do, and gives
the text that the history has. -/
structure RequestExact (C : Charset) (h : Nami.History Bytes) (ta : Textarea) (forward : Bool) : Prop where
  record : ∀ n, ta.undoDetail forward = some n →
    ∃ detail, ta.undo.details[n]? = some detail ∧ detail.edition = ta.edition
  nothing : History.request forward h = none →
    ta.undoDetail forward = none ∧ ta.undoRedo C forward = some (ta, none)
  applied : ∀ h', History.request forward h = some h' →
    ∃ ta' caret, ta.undoRedo C forward = some (ta', some caret) ∧ ta'.text.data = h'.present

end Textarea

/-- Redo, moreover, is requested only after a change was recorded. -/
def TextareaOp.Safe (op : TextareaOp) (ta : Textarea) : Prop := op.Valid ta ∧ (op = .redo → ta.Recorded)

namespace Textarea

variable {C : Charset} {ta ta' : Textarea} {p q del : Bytes}

/-! ## Buffers -/

theorem slice_append (p a q : Bytes) : slice (p ++ (a ++ q)) p.length (p.length + a.length) = a := by
  unfold slice
  rw [drop_left, Nat.add_sub_cancel_left, take_left]

theorem length_writeAt {buffer bytes : Bytes} {off : Nat} (h : off + bytes.length ≤ buffer.length) :
    (writeAt buffer off bytes).length = buffer.length := by
  unfold writeAt
  rw [length_append, length_append, length_take, length_drop]
  omega

theorem slice_writeAt {buffer bytes : Bytes} {off : Nat} (h : off + bytes.length ≤ buffer.length) :
    slice (writeAt buffer off bytes) off (off + bytes.length) = bytes := by
  have hoff : (buffer.take off).length = off := length_take_of_le (by omega)
  have hslice := slice_append (buffer.take off) bytes (buffer.drop (off + bytes.length))
  rw [hoff] at hslice
  unfold writeAt
  rw [append_assoc]
  exact hslice

theorem slice_writeAt_apart {buffer bytes : Bytes} {off bStart bEnd : Nat} (h : off + bytes.length ≤ buffer.length)
    (hapart : bEnd ≤ off ∨ off + bytes.length ≤ bStart) :
    slice (writeAt buffer off bytes) bStart bEnd = slice buffer bStart bEnd := by
  have hoff : (buffer.take off).length = off := length_take_of_le (by omega)
  unfold slice
  apply ext_getElem?
  intro i
  rw [List.getElem?_take, List.getElem?_take, List.getElem?_drop, List.getElem?_drop]
  split
  · unfold writeAt
    obtain hapart | hapart := hapart
    · rw [append_assoc, List.getElem?_append_left (by omega), List.getElem?_take_of_lt (by omega)]
    · rw [List.getElem?_append_right (by rw [length_append]; omega), List.getElem?_drop, length_append, hoff]
      congr 1
      omega
  · rfl

theorem slice_grow {buffer : Bytes} {size bStart bEnd : Nat} (h : bEnd ≤ buffer.length) :
    slice (grow buffer size) bStart bEnd = slice buffer bStart bEnd := by
  unfold slice grow
  by_cases hstart : bStart ≤ buffer.length
  · rw [drop_append_of_le_length hstart, take_append_of_le_length]
    rw [length_drop]
    omega
  · rw [Nat.sub_eq_zero_of_le (by omega), take_zero, take_zero]

theorem length_grow (buffer : Bytes) (size : Nat) : (grow buffer size).length = max buffer.length size := by
  unfold grow
  rw [length_append, length_replicate]
  omega

theorem modify_append {α : Type*} (f : α → α) (a : α) (l r : List α) :
    (l ++ a :: r).modify l.length f = l ++ f a :: r := by
  induction l with
  | nil => rfl
  | cons b l ih => exact congrArg (List.cons b) ih

/-! ## One record -/

/-- A record takes one text to another: it knows where what differs stands in the first one, and the buffer has
what stands there in the second. -/
def Swaps (buffer : Bytes) (detail : TextareaUndoDetail) (here there : Bytes) : Prop :=
  ∃ p a b q, here = p ++ (a ++ q) ∧ there = p ++ (b ++ q) ∧ q ≠ [] ∧
    detail.bTextStart = p.length ∧ detail.bTextEnd = p.length + a.length ∧
    detail.bEnd = detail.bStart + b.length ∧ slice buffer detail.bStart detail.bEnd = b ∧
    a.length ≤ detail.bLimit ∧ b.length ≤ detail.bLimit ∧ detail.bStart + detail.bLimit ≤ buffer.length

theorem applyDetail_swaps (hreadonly : ta.readonly = false) (hpassword : ta.isPassword = false)
    {detail : TextareaUndoDetail} {there : Bytes} (hswaps : Swaps ta.undo.text detail ta.text.data there)
    (hthere : Normal ta.multiline there) (forward : Bool) (n : Nat) :
    ∃ u a, ta.applyDetail C forward n detail = { ta with
        text := ⟨there, u⟩
        undo := { ta.undo with
          text := writeAt ta.undo.text detail.bStart a
          details := ta.undo.details.set n (swapped detail)
          nextDetail := if forward then ta.undo.nextDetail + 1 else ta.undo.nextDetail - 1 } } ∧
      a.length ≤ detail.bLimit ∧ detail.bStart + detail.bLimit ≤ ta.undo.text.length ∧
      Swaps (writeAt ta.undo.text detail.bStart a) (swapped detail) there ta.text.data := by
  obtain ⟨p, a, b, q, hhere, rfl, hne, hstart, hend, hbEnd, hslice, ha, hb, hlimit⟩ := hswaps
  have hbq := (normal_append.mp hthere).2
  obtain ⟨u, hreplace⟩ := replaceTextInternal_eq (C := C) ta hreadonly hpassword hhere
    (normal_append.mp hbq).2 hne b false
  rw [normalise_of_normal hbq] at hreplace
  have htemp : (if detail.bTextEnd > detail.bTextStart then slice ta.text.data detail.bTextStart detail.bTextEnd
      else []) = a := by
    rw [hhere, hstart, hend, slice_append]
    split
    · rfl
    · exact (length_eq_zero_iff.mp (by omega)).symm
  refine ⟨u, a, ?_, ha, hlimit, p, b, a, q, rfl, hhere, hne, hstart, ?_, ?_, ?_, hb, ha, ?_⟩
  · unfold applyDetail
    dsimp only
    rw [htemp, hslice, hstart, hend, hreplace]
    rfl
  · show detail.bTextStart + (detail.bEnd - detail.bStart) = p.length + b.length
    omega
  · show detail.bStart + (detail.bTextEnd - detail.bTextStart) = detail.bStart + a.length
    omega
  · show slice _ detail.bStart (detail.bStart + (detail.bTextEnd - detail.bTextStart)) = a
    have hlen : detail.bTextEnd - detail.bTextStart = a.length := by omega
    rw [hlen]
    exact slice_writeAt (by omega)
  · rw [length_writeAt (by omega)]
    exact hlimit

theorem Swaps.writeAt {buffer bytes : Bytes} {detail : TextareaUndoDetail} {here there : Bytes} {off : Nat}
    (h : Swaps buffer detail here there) (hoff : off + bytes.length ≤ buffer.length)
    (hapart : detail.bStart + detail.bLimit ≤ off ∨ off + bytes.length ≤ detail.bStart) :
    Swaps (writeAt buffer off bytes) detail here there := by
  obtain ⟨p, a, b, q, hhere, hthere, hne, hstart, hend, hbEnd, hslice, ha, hb, hlimit⟩ := h
  refine ⟨p, a, b, q, hhere, hthere, hne, hstart, hend, hbEnd, ?_, ha, hb, ?_⟩
  · rw [slice_writeAt_apart hoff]
    · exact hslice
    · obtain h | h := hapart
      · exact .inl (by omega)
      · exact .inr h
  · rw [length_writeAt hoff]
    exact hlimit

theorem Swaps.grow {buffer : Bytes} {detail : TextareaUndoDetail} {here there : Bytes} (size : Nat)
    (h : Swaps buffer detail here there) : Swaps (grow buffer size) detail here there := by
  obtain ⟨p, a, b, q, hhere, hthere, hne, hstart, hend, hbEnd, hslice, ha, hb, hlimit⟩ := h
  refine ⟨p, a, b, q, hhere, hthere, hne, hstart, hend, hbEnd, ?_, ha, hb, ?_⟩
  · rw [slice_grow (by omega)]
    exact hslice
  · rw [length_grow]
    exact Nat.le_trans hlimit (Nat.le_max_left ..)

/-! ## All records -/

/-- The text and the records are a history of the texts since the text was set. -/
structure Represents (ta : Textarea) (h : Nami.History Bytes) : Prop where
  readonly : ta.readonly = false
  isPassword : ta.isPassword = false
  text : ta.text.data = h.present
  normal : ∀ t ∈ h.values, Normal ta.multiline t
  next : ta.undo.nextDetail = h.pos
  last : h.values.length = 1 ∧ ta.undo.lastDetail = 0 ∨ ta.undo.lastDetail + 2 = h.values.length
  records : ∀ i t t', h.values[i]? = some t → h.values[i + 1]? = some t' → ∃ detail,
    ta.undo.details[i]? = some detail ∧ detail.edition = ta.edition ∧
    (i < h.pos → Swaps ta.undo.text detail t' t) ∧ (h.pos ≤ i → Swaps ta.undo.text detail t t')
  apart : ∀ i j d d', i < j → j + 1 < h.values.length → ta.undo.details[i]? = some d → ta.undo.details[j]? = some d' →
    d.bStart + d.bLimit ≤ d'.bStart
  stale : h.values.length = 1 → ∀ detail ∈ ta.undo.details, detail.edition < ta.edition
  editions : ∀ detail ∈ ta.undo.details, detail.edition ≤ ta.edition

namespace Represents

variable {h h' : Nami.History Bytes}

theorem create (multiline : Bool) : Represents (.create multiline false false) (.start [0]) where
  readonly := rfl
  isPassword := rfl
  text := rfl
  normal t ht := by
    rw [mem_singleton.mp ht]
    cases multiline <;> exact ⟨by decide, fun _ => by decide⟩
  next := rfl
  last := .inl ⟨rfl, rfl⟩
  records i t t' _ h := nomatch h
  apart i j d d' _ hj := absurd hj (by simp [Nami.History.start])
  stale _ detail h := nomatch h
  editions detail h := nomatch h

theorem setText (hr : Represents ta h) (text : Bytes) : (ta.setText C text).multiline = ta.multiline ∧
      Represents (ta.setText C text) (replay ta.multiline h (.setText text)) := by
  have hend : Normal ta.multiline [0] := by
    cases ta.multiline <;> exact ⟨by decide, fun _ => by decide⟩
  have hn : (cstr text).length ≤ (cstr text ++ [0]).length := by
    rw [length_append]
    exact Nat.le_add_right ..
  have hloop (u : Int) := TextareaUtf8.normaliseText_append hend hn [] u
  unfold Textarea.setText replay
  dsimp only
  rw [obscure_of_text { ta with
    text := _, undo := { ta.undo with nextDetail := 0, lastDetail := 0 }, edition := ta.edition + 1 } hr.isPassword]
  refine ⟨rfl, ?_⟩
  refine {
    readonly := hr.readonly
    isPassword := hr.isPassword
    text := congrArg TextareaUtf8.data (hloop _)
    normal := fun t ht => ?_
    next := rfl
    last := .inl ⟨rfl, rfl⟩
    records := fun i t t' _ h => nomatch h
    apart := fun i j d d' _ hj => absurd hj (by simp [Nami.History.start])
    stale := fun _ detail hdetail => Nat.lt_succ_of_le (hr.editions detail hdetail)
    editions := fun detail hdetail => Nat.le_succ_of_le (hr.editions detail hdetail) }
  rw [mem_singleton.mp ht]
  exact normal_normalise ..

theorem record (hr : Represents ta h) {n : Nat} (hn : n + 1 < h.values.length) : ∃ detail t t',
    h.values[n]? = some t ∧ h.values[n + 1]? = some t' ∧ ta.undo.details[n]? = some detail ∧
      detail.edition = ta.edition ∧ (n < h.pos → Swaps ta.undo.text detail t' t) ∧
      (h.pos ≤ n → Swaps ta.undo.text detail t t') := by
  have ht := List.getElem?_eq_getElem (Nat.lt_of_succ_lt hn)
  have ht' := List.getElem?_eq_getElem hn
  obtain ⟨detail, hrest⟩ := hr.records n _ _ ht ht'
  exact ⟨detail, _, _, ht, ht', hrest⟩

theorem apply (hr : Represents ta h) (forward : Bool) {n : Nat} {detail : TextareaUndoDetail}
    (hvalues : h'.values = h.values)
    (hpos : if forward then n = h.pos ∧ h'.pos = h.pos + 1 else n + 1 = h.pos ∧ h'.pos = n)
    (hdetail : ta.undo.details[n]? = some detail) :
    (ta.applyDetail C forward n detail).multiline = ta.multiline ∧
      Represents (ta.applyDetail C forward n detail) h' := by
  have hlt := h.lt
  have hlt' : h'.pos < h.values.length := hvalues ▸ h'.lt
  have hn : n + 1 < h.values.length := by
    split at hpos <;> omega
  obtain ⟨detail', t₀, t₀', ht₀, ht₀', hdetail', hedition, hundo, hredo⟩ := hr.record hn
  obtain rfl := Option.some.inj (hdetail.symm.trans hdetail')
  have hpresent : h.values[h.pos]? = some ta.text.data := hr.text ▸ h.getElem?_pos
  have hpresent' : h.values[h'.pos]? = some h'.present := hvalues ▸ h'.getElem?_pos
  have hthere : Normal ta.multiline h'.present := hr.normal _ (mem_of_getElem? hpresent')
  have hswaps : Swaps ta.undo.text detail ta.text.data h'.present := by
    split at hpos
    · obtain ⟨rfl, hpos'⟩ := hpos
      rw [hpos', ht₀'] at hpresent'
      rw [ht₀] at hpresent
      rw [← Option.some.inj hpresent, ← Option.some.inj hpresent']
      exact hredo (Nat.le_refl _)
    · obtain ⟨hn', rfl⟩ := hpos
      rw [ht₀] at hpresent'
      rw [← hn', ht₀'] at hpresent
      rw [← Option.some.inj hpresent, ← Option.some.inj hpresent']
      exact hundo (by omega)
  obtain ⟨u, a, hnew, hlength, hlimit, hback⟩ :=
    applyDetail_swaps (C := C) hr.readonly hr.isPassword hswaps hthere forward n
  have hlen := (List.getElem?_eq_some_iff.mp hdetail).1
  rw [hnew]
  refine ⟨rfl, ?_⟩
  refine {
    readonly := hr.readonly
    isPassword := hr.isPassword
    text := rfl
    normal := hvalues ▸ hr.normal
    next := ?_
    last := hvalues ▸ hr.last
    records := fun i t t' ht ht' => ?_
    apart := fun i j d d' hij hj hd hd' => ?_
    stale := fun h => ?_
    editions := fun d hd => ?_ }
  · have hnext := hr.next
    dsimp only
    split at hpos
    · rw [if_pos ‹_›]
      omega
    · rw [if_neg ‹_›]
      omega
  · rw [hvalues] at ht ht'
    dsimp only
    by_cases hi : i = n
    · -- The record that was applied.
      subst hi
      refine ⟨swapped detail, List.getElem?_set_self hlen, hedition, fun hlt => ?_, fun hle => ?_⟩
      · split at hpos
        · rw [hpos.1, hpresent] at ht
          rw [hpos.1, ← hpos.2, hpresent'] at ht'
          rw [← Option.some.inj ht, ← Option.some.inj ht']
          exact hback
        · omega
      · split at hpos
        · omega
        · rw [← hpos.2, hpresent'] at ht
          rw [hpos.1, hpresent] at ht'
          rw [← Option.some.inj ht, ← Option.some.inj ht']
          exact hback
    · obtain ⟨d, hd, hdedition, hdundo, hdredo⟩ := hr.records i t t' ht ht'
      have hi' : i + 1 < h.values.length := (List.getElem?_eq_some_iff.mp ht').1
      have hapart : d.bStart + d.bLimit ≤ detail.bStart ∨ detail.bStart + a.length ≤ d.bStart := by
        obtain hlt | hgt := Nat.lt_or_gt_of_ne hi
        · exact .inl (hr.apart i n d detail hlt hn hd hdetail)
        · have := hr.apart n i detail d hgt hi' hdetail hd
          exact .inr (by omega)
      refine ⟨d, (List.getElem?_set_ne (Ne.symm hi)).trans hd, hdedition, fun hlt => ?_, fun hle => ?_⟩
      · refine (hdundo ?_).writeAt (by omega) hapart
        split at hpos <;> omega
      · refine (hdredo ?_).writeAt (by omega) hapart
        split at hpos <;> omega
  · -- The records have the places that they had.
    have hplace {i : Nat} {d : TextareaUndoDetail} (hd : (ta.undo.details.set n (swapped detail))[i]? = some d) :
        ∃ d', ta.undo.details[i]? = some d' ∧ d'.bStart = d.bStart ∧ d'.bLimit = d.bLimit := by
      by_cases hi : i = n
      · subst hi
        rw [List.getElem?_set_self hlen] at hd
        cases hd
        exact ⟨detail, hdetail, rfl, rfl⟩
      · rw [List.getElem?_set_ne (Ne.symm hi)] at hd
        exact ⟨d, hd, rfl, rfl⟩
    obtain ⟨d₁, hd₁, hstart₁, hlimit₁⟩ := hplace hd
    obtain ⟨d₂, hd₂, hstart₂, -⟩ := hplace hd'
    rw [← hstart₁, ← hlimit₁, ← hstart₂]
    exact hr.apart i j d₁ d₂ hij (hvalues ▸ hj) hd₁ hd₂
  · rw [hvalues] at h
    omega
  · obtain hd | rfl := mem_or_eq_of_mem_set hd
    · exact hr.editions d hd
    · exact Nat.le_of_eq hedition

theorem undoOffset (hr : Represents ta h) {i : Nat} {detail : TextareaUndoDetail} (hi : i < h.pos)
    (hdetail : ta.undo.details[i]? = some detail) : detail.bStart + detail.bLimit ≤ ta.undoOffset := by
  have hlt := h.lt
  obtain ⟨last, -, -, -, -, hlast, -⟩ := hr.record (n := h.pos - 1) (by omega)
  unfold Textarea.undoOffset
  rw [hr.next, if_neg (by omega), hlast]
  show _ ≤ last.bStart + last.bLimit
  obtain heq | hne := Nat.eq_or_lt_of_le (Nat.le_sub_one_of_lt hi)
  · subst heq
    obtain rfl := Option.some.inj (hdetail.symm.trans hlast)
    exact Nat.le_refl _
  · have hapart := hr.apart i (h.pos - 1) detail last hne (by omega) hdetail hlast
    omega

theorem le_length_details (hr : Represents ta h) : h.pos ≤ ta.undo.details.length := by
  by_cases hpos : h.pos = 0
  · omega
  · have hlt := h.lt
    obtain ⟨last, -, -, -, -, hlast, -⟩ := hr.record (n := h.pos - 1) (by omega)
    have := (List.getElem?_eq_some_iff.mp hlast).1
    omega

theorem change (hr : Represents ta h) {ins : Bytes} {repLen : Nat} {u : Int}
    (htext : ta.text.data = p ++ (del ++ q)) (hne : q ≠ []) (hins : ins.length ≤ max del.length repLen)
    (hnormal : Normal ta.multiline (p ++ (ins ++ q))) :
    Represents (({ ta.copyToUndoBuffer p.length (p.length + del.length) repLen with
      text := ⟨p ++ (ins ++ q), u⟩ } : Textarea).recordDetail (p.length + ins.length)) (h.edit (p ++ (ins ++ q))) := by
  have hlen := hr.le_length_details
  have hlt := h.lt
  -- The new record and its place.
  generalize hoff : ta.undoOffset = off
  generalize hlimit : (if p.length + del.length - p.length > repLen then p.length + del.length - p.length
    else repLen) = limit
  have hmax : limit = max del.length repLen := by
    rw [← hlimit]
    split <;> omega
  have hfits : off + del.length ≤ (grow ta.undo.text (off + limit)).length := by
    rw [length_grow]
    omega
  have hslice : slice ta.text.data p.length (p.length + del.length) = del := by
    rw [htext, slice_append]
  generalize hnew : (TextareaUndoDetail.mk off (off + (p.length + del.length) - p.length) limit p.length
    (p.length + ins.length) ta.edition) = new
  have hnewEnd : off + (p.length + del.length) - p.length = off + del.length := by omega
  have hdetails : (({ ta.copyToUndoBuffer p.length (p.length + del.length) repLen with
      text := ⟨p ++ (ins ++ q), u⟩ } : Textarea).recordDetail (p.length + ins.length)).undo.details =
      ta.undo.details.take h.pos ++ new :: ta.undo.details.drop (h.pos + 1) := by
    have htake : (ta.undo.details.take h.pos).length = h.pos := length_take_of_le hlen
    unfold Textarea.recordDetail Textarea.copyToUndoBuffer
    dsimp only
    rw [hr.next, hoff, hlimit, ← hnew]
    have hmodify (f : TextareaUndoDetail → TextareaUndoDetail) (d : TextareaUndoDetail) :=
      modify_append f d (ta.undo.details.take h.pos) (ta.undo.details.drop (h.pos + 1))
    rw [htake] at hmodify
    exact hmodify ..
  have hbuffer : (({ ta.copyToUndoBuffer p.length (p.length + del.length) repLen with
      text := ⟨p ++ (ins ++ q), u⟩ } : Textarea).recordDetail (p.length + ins.length)).undo.text =
      writeAt (grow ta.undo.text (off + limit)) off del := by
    unfold Textarea.recordDetail Textarea.copyToUndoBuffer
    dsimp only
    rw [hoff, hlimit, hslice]
  -- What the list of records has before the new one, and there.
  have hold {i : Nat} (hi : i < h.pos) : (ta.undo.details.take h.pos ++ new ::
      ta.undo.details.drop (h.pos + 1))[i]? = ta.undo.details[i]? := by
    rw [List.getElem?_append_left, List.getElem?_take_of_lt hi]
    rw [length_take_of_le hlen]
    exact hi
  have hhere : (ta.undo.details.take h.pos ++ new :: ta.undo.details.drop (h.pos + 1))[h.pos]? = some new := by
    rw [List.getElem?_append_right, length_take_of_le hlen, Nat.sub_self]
    · rfl
    · rw [length_take_of_le hlen]
  refine {
    readonly := hr.readonly
    isPassword := hr.isPassword
    text := (h.present_edit _).symm
    normal := fun t ht => ?_
    next := ?_
    last := .inr ?_
    records := fun i t t' ht ht' => ?_
    apart := fun i j d d' hij hj hd hd' => ?_
    stale := fun hone => ?_
    editions := fun d hd => ?_ }
  · obtain ht | ht := mem_append.mp ht
    · exact hr.normal t (mem_of_mem_take ht)
    · rw [mem_singleton.mp ht]
      exact hnormal
  · show ta.undo.nextDetail + 1 = h.pos + 1
    rw [hr.next]
  · show ta.undo.nextDetail + 2 = (h.edit _).values.length
    rw [hr.next, h.length_edit]
  · rw [hdetails, hbuffer]
    have hi : i + 1 < (h.edit (p ++ (ins ++ q))).values.length := (List.getElem?_eq_some_iff.mp ht').1
    rw [h.length_edit] at hi
    obtain hi | rfl := Nat.lt_or_eq_of_le (Nat.le_of_lt_succ (Nat.lt_of_succ_lt_succ hi))
    · -- A change before.
      rw [h.getElem?_edit hi.le] at ht
      rw [h.getElem?_edit hi] at ht'
      obtain ⟨d, hd, hedition, hundo, -⟩ := hr.records i t t' ht ht'
      refine ⟨d, (hold hi).trans hd, hedition, fun _ => ?_,
        fun hle => absurd hle (Nat.not_le_of_lt (Nat.lt_succ_of_lt hi))⟩
      apply ((hundo hi).grow _).writeAt hfits
      rw [← hoff]
      exact .inl (hr.undoOffset hi hd)
    · rw [h.getElem?_edit (Nat.le_refl _), h.getElem?_pos, ← hr.text, htext] at ht
      rw [h.getElem?_edit_succ] at ht'
      cases ht
      cases ht'
      refine ⟨new, hhere, ?_, fun _ => ?_, fun hle => absurd hle (Nat.not_succ_le_self _)⟩
      · rw [← hnew]
        rfl
      · subst hnew
        refine ⟨p, ins, del, q, rfl, rfl, hne, rfl, rfl, hnewEnd, ?_, ?_, ?_, ?_⟩
        · show Nami.Desktop.Textarea.slice _ off (off + (p.length + del.length) - p.length) = del
          rw [hnewEnd]
          exact slice_writeAt hfits
        · show ins.length ≤ limit
          rw [hmax]
          exact hins
        · show del.length ≤ limit
          rw [hmax]
          exact Nat.le_max_left ..
        · show off + limit ≤ _
          rw [length_writeAt hfits, length_grow]
          exact Nat.le_max_right ..
  · rw [hdetails] at hd hd'
    rw [h.length_edit] at hj
    have hi : i < h.pos := by omega
    rw [hold hi] at hd
    obtain hj | rfl := Nat.lt_or_eq_of_le (Nat.le_of_lt_succ (Nat.lt_of_succ_lt_succ hj))
    · rw [hold hj] at hd'
      exact hr.apart i j d d' hij (by omega) hd hd'
    · rw [hhere] at hd'
      cases hd'
      rw [← hnew]
      show _ ≤ off
      rw [← hoff]
      exact hr.undoOffset hi hd
  · rw [h.length_edit] at hone
    omega
  · rw [hdetails] at hd
    obtain hd | hd := mem_append.mp hd
    · exact hr.editions d (mem_of_mem_take hd)
    · obtain rfl | hd := mem_cons.mp hd
      · rw [← hnew]
        exact Nat.le_refl _
      · exact hr.editions d (mem_of_mem_drop hd)

theorem edit (hr : Represents ta h) {bStart bEnd : Nat} (hle : bStart ≤ bEnd) (hend : bEnd < ta.text.len)
    (rep : Option Bytes) (clipboard : Bool) : ∃ ta' byteDelta,
      ta.replaceText C bStart bEnd rep clipboard = some (ta', byteDelta) ∧ ta'.multiline = ta.multiline ∧
      Represents ta' (replay ta.multiline h (.replaceText bStart bEnd rep clipboard)) := by
  -- What stays before and behind, and what goes.
  obtain ⟨p, del, q, htext, rfl, rfl, hne⟩ : ∃ p del q, ta.text.data = p ++ (del ++ q) ∧ bStart = p.length ∧
      bEnd = p.length + del.length ∧ q ≠ [] := Textarea.exists_append hle hend
  have hnormal : Normal ta.multiline (p ++ (del ++ q)) := by
    rw [← htext, hr.text]
    exact hr.normal _ (mem_of_getElem? h.getElem?_pos)
  obtain ⟨hp, hdelq⟩ := normal_append.mp hnormal
  have hq := (normal_append.mp hdelq).2
  have hpassword : (!ta.isPassword) = true := by
    rw [hr.isPassword]
    rfl
  unfold Textarea.replaceText replay copies
  dsimp only
  rw [hpassword, Bool.and_true, ← hr.text, htext]
  by_cases hcopies : (decide (p.length ≠ p.length + del.length) && rep.isNone && clipboard) = true
  · -- Only the clipboard is set.
    rw [if_neg (by rw [hcopies]; exact Bool.false_ne_true), if_pos hcopies]
    have hnone : rep = none := by
      rw [Bool.and_eq_true, Bool.and_eq_true] at hcopies
      exact Option.isNone_iff_eq_none.mp hcopies.1.2
    subst hnone
    exact ⟨ta, 0, replaceTextInternal_none ta hr.readonly hr.isPassword hle hend clipboard, rfl, hr⟩
  · rw [if_pos (by rw [Bool.not_eq_true _ |>.mp hcopies]; rfl), if_neg hcopies]
    generalize hcopy : ta.copyToUndoBuffer p.length (p.length + del.length) (rep.getD []).length = copy
    obtain ⟨ins, u, hinternal, hins, hinsq, hnew⟩ : ∃ ins u,
        copy.replaceTextInternal C p.length (p.length + del.length) rep clipboard =
          some ({ copy with text := ⟨p ++ (ins ++ q), u⟩ }, (ins.length : Int) - del.length) ∧
        ins.length ≤ max del.length (rep.getD []).length ∧ Normal ta.multiline (ins ++ q) ∧
        edited ta.multiline (p ++ (del ++ q)) p.length (p.length + del.length) rep = p ++ (ins ++ q) := by
      subst hcopy
      cases rep with
      | none =>
        refine ⟨del, ta.text.utf8Len, ?_, Nat.le_max_left .., hdelq, rfl⟩
        have hinternal := replaceTextInternal_none (C := C)
          (ta.copyToUndoBuffer p.length (p.length + del.length) 0) hr.readonly hr.isPassword hle hend clipboard
        rw [Int.sub_self, ← htext]
        exact hinternal
      | some rep =>
        obtain ⟨ins, heq, hins, hinsNormal⟩ := normalise_append hq rep
        obtain ⟨u, hinternal⟩ := replaceTextInternal_eq (C := C)
          (ta.copyToUndoBuffer p.length (p.length + del.length) rep.length) hr.readonly hr.isPassword htext hq hne
          rep clipboard
        refine ⟨ins, u, ?_, Nat.le_trans hins (Nat.le_max_right ..), normal_append.mpr ⟨hinsNormal, hq⟩, ?_⟩
        · refine hinternal.trans (congrArg some (Prod.ext ?_ ?_))
          · show { ta.copyToUndoBuffer p.length (p.length + del.length) rep.length with
              text := ⟨p ++ normalise ta.multiline (rep ++ q), u⟩ } = _
            rw [heq]
            rfl
          · show ((p ++ normalise ta.multiline (rep ++ q)).length : Int) - ta.text.data.length = _
            rw [heq, htext, length_append, length_append, length_append, length_append]
            omega
        · show (p ++ (del ++ q)).take p.length ++ normalise ta.multiline
            (rep ++ (p ++ (del ++ q)).drop (p.length + del.length)) = _
          rw [take_left, ← append_assoc p, drop_left' length_append, heq]
    have hbTextEnd : (((p.length + del.length : Nat) : Int) + ((ins.length : Int) - del.length)).toNat =
        p.length + ins.length := by omega
    rw [hnew, hinternal]
    refine ⟨_, _, rfl, ?_, ?_⟩
    · subst hcopy
      rfl
    · rw [hbTextEnd, ← hcopy]
      exact hr.change htext hne hins (normal_append.mpr ⟨hp, hinsq⟩)

theorem request (hr : Represents ta h) {forward : Bool} (hrecorded : forward = true → ta.Recorded) :
    History.request forward h = none ∧ ta.undoDetail forward = none ∨
    ∃ n detail h', History.request forward h = some h' ∧ ta.undoDetail forward = some n ∧
      ta.undo.details[n]? = some detail ∧ detail.edition = ta.edition ∧
      (ta.applyDetail C forward n detail).multiline = ta.multiline ∧
      Represents (ta.applyDetail C forward n detail) h' := by
  have hlt := h.lt
  have hnot : ¬ (ta.isPassword || ta.readonly) = true := by
    rw [hr.isPassword, hr.readonly]
    exact Bool.false_ne_true
  cases forward with
  | false =>
    have hdetail : ta.undoDetail false = if h.pos = 0 then none else some (h.pos - 1) := by
      unfold undoDetail
      rw [if_neg hnot, if_neg Bool.false_ne_true, hr.next]
    rw [hdetail]
    cases hrequest : History.request false h with
    | none =>
      refine .inl ⟨rfl, if_pos ?_⟩
      by_contra hpos
      exact absurd hrequest (by simp [History.request, History.undo, Nat.pos_of_ne_zero hpos])
    | some h' =>
      obtain ⟨hvalues, hpos⟩ := History.undo_eq_some_iff.mp hrequest
      obtain ⟨detail, -, -, -, -, hdetail, hedition, -⟩ := hr.record (n := h'.pos) (by omega)
      have hn : h.pos - 1 = h'.pos := by omega
      rw [if_neg (by omega), hn]
      exact .inr ⟨h'.pos, detail, h', rfl, rfl, hdetail, hedition, hr.apply false hvalues ⟨hpos, rfl⟩ hdetail⟩
  | true =>
    -- A record of this edition is there, so the text has changed.
    obtain ⟨recorded, hmem, hedition⟩ := hrecorded rfl
    have hlast : ta.undo.lastDetail + 2 = h.values.length := by
      obtain ⟨hone, -⟩ | hlast := hr.last
      · exact absurd hedition (Nat.ne_of_lt (hr.stale hone recorded hmem))
      · exact hlast
    have hdetail : ta.undoDetail true = if h.pos > ta.undo.lastDetail then none else some h.pos := by
      unfold undoDetail
      rw [if_neg hnot, if_pos rfl, hr.next]
    rw [hdetail]
    cases hrequest : History.request true h with
    | none =>
      refine .inl ⟨rfl, if_pos ?_⟩
      by_contra hpos
      have hlt : h.pos + 1 < h.values.length := by omega
      exact absurd hrequest (by simp [History.request, History.redo, hlt])
    | some h' =>
      obtain ⟨hvalues, hpos⟩ := History.redo_eq_some_iff.mp hrequest
      have hlt' := h'.lt
      rw [hvalues, hpos] at hlt'
      obtain ⟨detail, -, -, -, -, hdetail, hedition, -⟩ := hr.record hlt'
      rw [if_neg (by omega)]
      exact .inr ⟨h.pos, detail, h', rfl, rfl, hdetail, hedition, hr.apply true hvalues ⟨rfl, hpos⟩ hdetail⟩

theorem recorded (hr : Represents ta h) (hlen : 1 < h.values.length) : ta.Recorded := by
  obtain ⟨detail, -, -, -, -, hdetail, hedition, -⟩ := hr.record hlen
  exact ⟨detail, mem_of_getElem? hdetail, hedition⟩

theorem undoRedo (hr : Represents ta h) (forward : Bool) (hrecorded : forward = true → ta.Recorded) :
    History.request forward h = none ∧ ta.undoRedo C forward = some (ta, none) ∨
    ∃ h' ta' caret, History.request forward h = some h' ∧ ta.undoRedo C forward = some (ta', some caret) ∧
      ta'.multiline = ta.multiline ∧ Represents ta' h' := by
  unfold Textarea.undoRedo
  obtain ⟨hrequest, hnone⟩ | ⟨n, detail, h', hrequest, hn, hdetail, -, hmulti, hr'⟩ := hr.request (C := C) hrecorded
  · rw [hnone]
    exact .inl ⟨hrequest, rfl⟩
  · rw [hn]
    dsimp only
    rw [hdetail]
    exact .inr ⟨h', _, _, hrequest, rfl, hmulti, hr'⟩

theorem requests_undo (hr : Represents ta h) {k : Nat} (hrequests : ta.requests C false k = some ta') :
    ∃ h', h.undos k = some h' ∧ Represents ta' h' := by
  induction k generalizing ta h with
  | zero =>
    cases hrequests
    exact ⟨h, rfl, hr⟩
  | succ k ih =>
    unfold requests at hrequests
    obtain ⟨-, hnone⟩ | ⟨h₁, ta₁, caret, hrequest, hundo, -, hr₁⟩ := hr.undoRedo (C := C) false fun h => nomatch h
    · rw [hnone] at hrequests
      cases hrequests
    · rw [hundo] at hrequests
      obtain ⟨h', hundos, hr'⟩ := ih hr₁ hrequests
      exact ⟨h', Option.bind_eq_some_iff.mpr ⟨h₁, hrequest, hundos⟩, hr'⟩

theorem requests_redo (hr : Represents ta h) {k : Nat} (hredos : h.redos k = some h') :
    ∃ ta', ta.requests C true k = some ta' ∧ Represents ta' h' := by
  induction k generalizing ta h with
  | zero =>
    cases hredos
    exact ⟨ta, rfl, hr⟩
  | succ k ih =>
    obtain ⟨h₁, hredo, hredos⟩ := Option.bind_eq_some_iff.mp hredos
    obtain ⟨hvalues, hpos⟩ := History.redo_eq_some_iff.mp hredo
    have hlen : 1 < h.values.length := by
      have hlt := h₁.lt
      rw [hvalues, hpos] at hlt
      omega
    unfold requests
    obtain ⟨hnone, -⟩ | ⟨h₂, ta₁, caret, hrequest, hundo, -, hr₁⟩ := hr.undoRedo (C := C) true fun _ => hr.recorded hlen
    · exact absurd (hredo.symm.trans hnone) (by simp)
    · obtain rfl := Option.some.inj (hredo.symm.trans hrequest)
      rw [hundo]
      exact ih hr₁ hredos

theorem inverse (hr : Represents ta h) : ta.Inverse C where
  edit bStart bEnd rep clipboard hle hend hcopies := by
    obtain ⟨ta', byteDelta, hreplace, -, hr'⟩ := hr.edit (C := C) hle hend rep clipboard
    refine ⟨ta', byteDelta, ?_⟩
    have hreplay : replay ta.multiline h (.replaceText bStart bEnd rep clipboard) =
        h.edit (edited ta.multiline h.present bStart bEnd rep) :=
      if_neg (by rw [hcopies]; exact Bool.false_ne_true)
    rw [hreplay] at hr'
    obtain ⟨h₀, hundo, hpresent⟩ := h.undo_edit (edited ta.multiline h.present bStart bEnd rep)
    obtain ⟨hnone, -⟩ | ⟨h₁, ta'', caret, hrequest, hsome, -, hr''⟩ := hr'.undoRedo (C := C) false fun h => nomatch h
    · exact absurd (hundo.symm.trans hnone) (by simp)
    · obtain rfl := Option.some.inj (hundo.symm.trans hrequest)
      exact ⟨ta'', caret, hreplace, hsome, hr''.text.trans (hpresent.trans hr.text.symm)⟩
  undos k ta' hundos := by
    obtain ⟨h', hh', hr'⟩ := hr.requests_undo hundos
    obtain ⟨ta'', hredos, hr''⟩ := hr'.requests_redo (C := C) (History.redos_undos hh')
    exact ⟨ta'', hredos, hr''.text.trans hr.text.symm⟩

theorem requestExact (hr : Represents ta h) (forward : Bool) :
    RequestExact C h ta forward ↔ (forward = true → ta.Recorded) := by
  constructor
  · rintro hexact rfl
    by_contra hnone
    -- Both counts are 0, and the record behind the next one is applied.
    have hone : h.values.length = 1 := by
      by_contra hlen
      have hlt := h.lt
      exact hnone (hr.recorded (by omega))
    have hlast : ta.undo.lastDetail = 0 := by
      obtain ⟨-, hlast⟩ | hlast := hr.last
      · exact hlast
      · omega
    have hnext : ta.undo.nextDetail = 0 := by
      have hlt := h.lt
      have hnext := hr.next
      omega
    have hdetail : ta.undoDetail true = some 0 := by
      unfold undoDetail
      rw [hr.isPassword, hr.readonly, hnext, hlast]
      rfl
    obtain ⟨detail, hsome, hedition⟩ := hexact.record 0 hdetail
    exact hnone ⟨detail, mem_of_getElem? hsome, hedition⟩
  · intro hrecorded
    refine ⟨fun n hn => ?_, fun hnothing => ?_, fun h' hsome => ?_⟩
    · obtain ⟨-, hnone⟩ | ⟨n', detail, h', -, hn', hdetail, hedition, -⟩ := hr.request (C := C) hrecorded
      · exact absurd (hn.symm.trans hnone) (by simp)
      · obtain rfl := Option.some.inj (hn.symm.trans hn')
        exact ⟨detail, hdetail, hedition⟩
    · obtain ⟨-, hnone⟩ | ⟨n', detail, h', hrequest, -⟩ := hr.request (C := C) hrecorded
      · refine ⟨hnone, ?_⟩
        unfold Textarea.undoRedo
        rw [hnone]
      · exact absurd (hrequest.symm.trans hnothing) (by simp)
    · obtain ⟨hrequest, -⟩ | ⟨h₁, ta', caret, hrequest, hundo, -, hr'⟩ := hr.undoRedo (C := C) forward hrecorded
      · exact absurd (hsome.symm.trans hrequest) (by simp)
      · obtain rfl := Option.some.inj (hsome.symm.trans hrequest)
        exact ⟨ta', caret, hundo, hr'.text⟩

theorem exec (hr : Represents ta h) {op : TextareaOp} (hsafe : op.Safe ta) (hexec : op.exec C ta = some ta') :
    ta'.multiline = ta.multiline ∧ Represents ta' (replay ta.multiline h op) := by
  obtain ⟨hvalid, hredo⟩ := hsafe
  have hrequest (forward : Bool) (hrecorded : forward = true → ta.Recorded)
      (hexec : (ta.undoRedo C forward).map Prod.fst = some ta') :
      ta'.multiline = ta.multiline ∧ Represents ta' ((History.request forward h).getD h) := by
    obtain ⟨hrequest, hsame⟩ | ⟨h', ta₁, caret, hrequest, hsome, hmulti, hr'⟩ := hr.undoRedo (C := C) forward hrecorded
    · rw [hsame] at hexec
      cases hexec
      rw [hrequest]
      exact ⟨rfl, hr⟩
    · rw [hsome] at hexec
      cases hexec
      rw [hrequest]
      exact ⟨hmulti, hr'⟩
  cases op with
  | replaceText bStart bEnd rep clipboard =>
    obtain ⟨ta₁, byteDelta, hreplace, hmulti, hr'⟩ := hr.edit (C := C) hvalid.1 hvalid.2 rep clipboard
    have hexec : (ta.replaceText C bStart bEnd rep clipboard).map Prod.fst = some ta' := hexec
    rw [hreplace] at hexec
    cases hexec
    exact ⟨hmulti, hr'⟩
  | undo => exact hrequest false (fun h => nomatch h) hexec
  | redo => exact hrequest true (fun _ => hredo rfl) hexec
  | setText text =>
    cases hexec
    exact hr.setText text

end Represents

end Textarea

/-- Where redo is only requested after a change was recorded, the text is the present one of the history, undo and
redo are inverse to each other, and a request does for the history what it should exactly where it may be made. -/
theorem undoRedo_of_run {C : Charset} {ops : List TextareaOp} {ta : Textarea}
    (hr : (textareaSystem C).Run TextareaOp.Safe ops ta) :
    ta.text.data = (textHistory ta.multiline ops).present ∧ ta.Inverse C ∧
      ∀ forward, ta.RequestExact C (textHistory ta.multiline ops) forward ↔ (forward = true → ta.Recorded) := by
  have hrepresents : ta.Represents (textHistory ta.multiline ops) := by
    apply hr.traceInvariant (I := fun ops ta => ta.Represents (textHistory ta.multiline ops))
    · rintro ta ⟨multiline, rfl⟩
      exact .create multiline
    · intro ops op ta ta' hsafe hexec hr
      obtain ⟨hmulti, hr'⟩ := hr.exec hsafe hexec
      unfold textHistory
      rw [hmulti, foldl_append]
      exact hr'
  exact ⟨hrepresents.text, hrepresents.inverse, hrepresents.requestExact⟩

/-- Two edits, of which the second one is undone and done again. -/
theorem editRun_undoRedo : ∃ ta, (textareaSystem bytewise).Run TextareaOp.Safe
      [.replaceText 0 0 (some (str "a\r\nb")) false, .replaceText 1 3 (some (str "c")) false, .undo, .redo] ta ∧
    ta.text.data = str "ac" ++ [0] ∧ ta.Inverse bytewise ∧ ta.Recorded ∧
    ∀ forward, ta.RequestExact bytewise (textHistory ta.multiline
      [.replaceText 0 0 (some (str "a\r\nb")) false, .replaceText 1 3 (some (str "c")) false, .undo, .redo]) forward ↔
        (forward = true → ta.Recorded) := by
  have hrun : (textareaSystem bytewise).Run TextareaOp.Safe [] (.create true false false) := .start ⟨true, rfl⟩
  have hrun := hrun.step (.replaceText 0 0 (some (str "a\r\nb")) false) ⟨⟨by decide, by decide⟩, fun h => nomatch h⟩ rfl
  have hrun := hrun.step (.replaceText 1 3 (some (str "c")) false) ⟨⟨by decide, by decide⟩, fun h => nomatch h⟩ rfl
  have hrun := hrun.step .undo ⟨trivial, fun h => nomatch h⟩ rfl
  have hrun := hrun.step .redo ⟨trivial, fun _ => ⟨_, mem_cons_self, rfl⟩⟩ rfl
  have hall := undoRedo_of_run hrun
  exact ⟨_, hrun, by decide, hall.2.1, ⟨_, mem_cons_self, rfl⟩, hall.2.2⟩

/-- After the text was set, redo applies the record of a change before. -/
theorem not_undoRedo : ¬ ∀ ops ta, (textareaSystem bytewise).Run TextareaOp.Valid ops ta →
    ta.text.data = (textHistory ta.multiline ops).present ∧ ta.Inverse bytewise ∧
      ∀ forward, ta.RequestExact bytewise (textHistory ta.multiline ops) forward := by
  intro h
  have hrun : (textareaSystem bytewise).Run TextareaOp.Valid [] (.create true false false) := .start ⟨true, rfl⟩
  have hrun := hrun.step (.replaceText 0 0 (some (str "x")) false) ⟨by decide, by decide⟩ rfl
  have hrun := hrun.step (.setText []) trivial rfl
  obtain ⟨detail, hdetail, hedition⟩ := ((h _ _ hrun).2.2 true).record 0 rfl
  cases hdetail
  exact absurd hedition (by decide)

end Nami.Desktop
