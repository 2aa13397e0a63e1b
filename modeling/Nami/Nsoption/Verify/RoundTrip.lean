import Nami.Nsoption.Verify.Values

/-!
# Options survive a save and a load

An option table that is written and read into the defaults is the same again, as long as each string fits into the line
buffer of `nsoption_read` together with its key. A longer one comes back cut off.
-/

namespace Nami.Nsoption

open List

variable {opts defs pre post : OptionTable} {option default : NsOption} {key value line file s : Bytes}

/-! ## Tables -/

/-- Keys are different words, ignoring case, and values can be written on a line. -/
structure ValidTable (opts : OptionTable) : Prop where
  isKey : ∀ o ∈ opts, IsKey o.key
  distinct : (opts.map fun o => lower o.key).Nodup
  plain : ∀ o ∈ opts, Plain o.value

/-- The tables have the same options. -/
def Alike (opts defs : OptionTable) : Prop :=
  List.Forall₂ (fun o d => o.key = d.key ∧ SameType o.value d.value) opts defs

/-- The empty string stands for none. -/
def normOption (o : NsOption) : NsOption := { o with value := o.value.norm }

/-- The options have the same values, and an empty string counts as none. -/
def SameOptions (a b : OptionTable) : Prop := a.map normOption = b.map normOption

/-- The line of a string is at most 1023 bytes long without its newline. -/
def FitsLine (o : NsOption) : Prop := ∀ s, o.value = .string (some s) → o.key.length + 1 + s.length ≤ 1023

@[simp] theorem norm_norm (v : OptionValue) : v.norm.norm = v.norm := by
  cases v with
  | string s =>
    cases s with
    | none => rfl
    | some s => cases s <;> rfl
  | _ => rfl

/-! ## A line that fits -/

theorem length_formatNat_le {n : Nat} (h : n < 10 ^ 10) : (formatNat n).length ≤ 10 :=
  (length_formatNat_le_iff (by decide)).mpr h

theorem length_printValue_le (hfits : FitsLine option) (hkey : IsKey option.key) :
    option.key.length + 1 + (printValue option.value).length ≤ 1023 := by
  have hlt := hkey.length_lt
  cases hv : option.value with
  | bool b =>
    have hlen : (printValue (.bool b)).length = 1 := by cases b <;> rfl
    omega
  | integer i =>
    have hlen := length_formatInt_le i
    change option.key.length + 1 + (formatInt i.toInt).length ≤ 1023
    omega
  | uint u =>
    have hlen := length_formatNat_le (Nat.lt_trans u.toNat_lt (by decide))
    change option.key.length + 1 + (formatNat u.toNat).length ≤ 1023
    omega
  | string s =>
    cases s with
    | none =>
      change option.key.length + 1 + 0 ≤ 1023
      omega
    | some s => exact hfits s hv
  | colour c =>
    change option.key.length + 1 + 6 ≤ 1023
    omega

theorem plain_printValue {v : OptionValue} (hplain : Plain v) : ('\n' : UInt8) ∉ printValue v ∧ 0 ∉ printValue v := by
  have hdigits {s : Bytes} (hs : ∀ c ∈ s, Ascii.isHex c = true ∨ c = '-') : ('\n' : UInt8) ∉ s ∧ 0 ∉ s := by
    constructor
    · intro hmem
      exact absurd (hs _ hmem) (by decide)
    · intro hmem
      exact absurd (hs _ hmem) (by decide)
  have hnat (n : Nat) : ∀ c ∈ formatNat n, Ascii.isHex c = true ∨ c = '-' := fun c hc => by
    have hdigit := isDigit_of_mem_formatNat hc
    unfold Ascii.isHex
    rw [hdigit]
    exact .inl rfl
  cases v with
  | bool b => cases b <;> decide
  | integer i =>
    apply hdigits
    change ∀ c ∈ formatInt i.toInt, _
    cases i.toInt with
    | ofNat n => exact hnat n
    | negSucc n =>
      rw [formatInt_negSucc]
      exact forall_mem_cons.mpr ⟨.inr rfl, hnat (n + 1)⟩
  | uint u => exact hdigits (hnat u.toNat)
  | string s =>
    cases s with
    | none => exact ⟨not_mem_nil, not_mem_nil⟩
    | some s => exact hplain
  | colour c =>
    apply hdigits
    intro d hd
    change d ∈ Utf8.hex6 _ at hd
    unfold Utf8.hex6 at hd
    obtain ⟨i, -, rfl⟩ := mem_map.mp hd
    exact .inl (hexDigit_spec (Nat.mod_lt _ (by decide))).1

theorem IsKey.not_mem (hkey : IsKey key) : ('\n' : UInt8) ∉ key ∧ 0 ∉ key :=
  ⟨fun hmem => (isKey_byte (hkey.word _ hmem)).2.2.1 rfl, fun hmem => (isKey_byte (hkey.word _ hmem)).2.2.2.2.2 rfl⟩

/-- The line of an option without its newline. -/
def lineBody (o : NsOption) : Bytes := o.key ++ (':' : UInt8) :: printValue o.value

theorem outputValueFile_eq (o : NsOption) : outputValueFile o = lineBody o ++ [('\n' : UInt8)] := by
  unfold outputValueFile lineBody
  rw [show str ":" = [(':' : UInt8)] from rfl, show str "\n" = [('\n' : UInt8)] from rfl]
  simp

theorem lineBody_plain (hkey : IsKey option.key) (hplain : Plain option.value) :
    ('\n' : UInt8) ∉ lineBody option ∧ 0 ∉ lineBody option := by
  obtain ⟨hnewline, hnul⟩ := hkey.not_mem
  obtain ⟨hnewline', hnul'⟩ := plain_printValue hplain
  unfold lineBody
  rw [mem_append, mem_cons, mem_append, mem_cons, not_or, not_or, not_or, not_or]
  exact ⟨⟨hnewline, by decide, hnewline'⟩, hnul, by decide, hnul'⟩

theorem readAll_line (hkey : IsKey option.key) (hplain : Plain option.value) (hfits : FitsLine option)
    (opts : OptionTable) :
    readAll opts (lineBody option ++ [('\n' : UInt8)]) = setOption option.key (printValue option.value) opts := by
  obtain ⟨hnewline, hnul⟩ := lineBody_plain hkey hplain
  have hlength : (lineBody option).length = option.key.length + 1 + (printValue option.value).length := by
    unfold lineBody
    rw [length_append, length_cons]
    omega
  have hle := length_printValue_le hfits hkey
  rw [readAll_of_ne_nil (show lineBody option ++ [('\n' : UInt8)] ≠ [] by simp)]
  by_cases hlen : (lineBody option).length + 1 ≤ 1023
  · rw [fgets_line hnewline hlen [], readAll_nil, cstr_eq_self]
    · unfold optionLine lineBody
      rw [append_assoc, cons_append, getKeyValue_append hkey (by simp)]
      simp
    · rw [mem_append, not_or]
      exact ⟨hnul, by decide⟩
  · have hfull : (lineBody option).length = 1023 := by omega
    have hlt := hkey.length_lt
    have hne : printValue option.value ≠ [] := ne_nil_of_length_pos (by omega)
    have hlast : (printValue option.value).getLast? ≠ some ('\n' : UInt8) := fun heq =>
      (plain_printValue hplain).1 (mem_of_getLast? heq)
    rw [fgets_long hnewline (by omega), take_of_length_le (by omega), drop_of_length_le (by omega),
      cstr_eq_self hnul]
    change optionLine (optionLine opts (lineBody option)) (cstr [('\n' : UInt8)]) = _
    unfold optionLine lineBody
    rw [getKeyValue_append hkey hne, if_neg hlast]
    rfl

/-! ## A file of such lines -/

/-- What becomes of a default. -/
def loaded (o d : NsOption) : NsOption := if isSet o.value d.value then { d with value := o.value.norm } else d

theorem normOption_loaded {o d : NsOption} (h : o.key = d.key ∧ SameType o.value d.value) :
    normOption (loaded o d) = normOption o := by
  obtain ⟨hkey, htype⟩ := h
  unfold loaded
  split
  · unfold normOption
    rw [norm_norm, hkey]
  · next hset =>
    have hvalue := (isSet_eq_false_iff htype).mp (Bool.eq_false_iff.mpr hset)
    unfold normOption
    rw [hkey, hvalue]

theorem readAll_write (halike : Alike opts defs) (hkeys : ∀ o ∈ opts, IsKey o.key)
    (hdistinct : (opts.map fun o => lower o.key).Nodup) (hplain : ∀ o ∈ opts, Plain o.value)
    (hpre : ∀ p ∈ pre, ∀ o ∈ opts, lower p.key ≠ lower o.key)
    (hfits : ∀ p ∈ opts.zip defs, isSet p.1.value p.2.value = true → FitsLine p.1) :
    readAll (pre ++ defs) (write opts defs) = pre ++ List.zipWith loaded opts defs := by
  induction halike generalizing pre with
  | nil => rfl
  | @cons o d opts defs hod halike ih =>
    obtain ⟨hkey, hkeys⟩ := forall_mem_cons.mp hkeys
    obtain ⟨hplain, hplains⟩ := forall_mem_cons.mp hplain
    rw [map_cons, nodup_cons] at hdistinct
    rw [zip_cons_cons, forall_mem_cons] at hfits
    have hrest (d' : NsOption) (hd' : d'.key = o.key) :
        readAll (pre ++ d' :: defs) (write opts defs) = pre ++ d' :: List.zipWith loaded opts defs := by
      have hpre' : ∀ p ∈ pre ++ [d'], ∀ o ∈ opts, lower p.key ≠ lower o.key := by
        intro p hp o' ho'
        rcases mem_append.mp hp with hp | hp
        · exact hpre p hp o' (mem_cons_of_mem _ ho')
        · obtain rfl := mem_singleton.mp hp
          rw [hd']
          exact fun heq => hdistinct.1 (mem_map.mpr ⟨o', ho', heq.symm⟩)
      have hih := ih hkeys hdistinct.2 hplains hpre' hfits.2
      rwa [append_assoc, append_assoc] at hih
    have hwrite : write (o :: opts) (d :: defs) =
        (if isSet o.value d.value then outputValueFile o else []) ++ write opts defs := rfl
    rw [hwrite, zipWith_cons_cons]
    unfold loaded
    by_cases hset : isSet o.value d.value = true
    · have hfirst : ∀ p ∈ pre, lower p.key ≠ lower d.key := fun p hp => by
        rw [← hod.1]
        exact hpre p hp o mem_cons_self
      rw [if_pos hset, if_pos hset, outputValueFile_eq, append_assoc, singleton_append,
        readAll_line_append (lineBody_plain hkey hplain).1, readAll_line hkey hplain (hfits.1 hset), hod.1,
        setOption_append hfirst, strToOption_printValue hod.2 hplain]
      exact hrest _ hod.1.symm
    · rw [if_neg hset, if_neg hset]
      exact hrest d hod.1.symm

/-! ## `nsoption_validate` looks at no string -/

/-- A change of a value that neither looks at a string nor makes one. -/
structure KeepsStrings (f : OptionValue → OptionValue) : Prop where
  string : ∀ s, f (.string s) = .string s
  other : ∀ v s, f v = .string s → v = .string s

theorem KeepsStrings.norm {f : OptionValue → OptionValue} (hf : KeepsStrings f) (v : OptionValue) :
    f v.norm = (f v).norm := by
  cases v with
  | string s =>
    rw [hf.string]
    cases s with
    | none => exact hf.string none
    | some s => cases s <;> exact hf.string _
  | _ =>
    unfold OptionValue.norm
    dsimp only
    split
    · next h => cases hf.other _ _ h
    · rfl

theorem keepsStrings_mapInteger (f : Int32 → Int32) : KeepsStrings (mapInteger f) := by
  refine ⟨fun _ => rfl, fun v s h => ?_⟩
  cases v <;> first | exact h | cases h

theorem keepsStrings_mapUint (f : UInt32 → UInt32) : KeepsStrings (mapUint f) := by
  refine ⟨fun _ => rfl, fun v s h => ?_⟩
  cases v <;> first | exact h | cases h

theorem index_map_normOption (name : String) (opts : OptionTable) :
    index name (opts.map normOption) = index name opts := by
  unfold index
  rw [findIdx_map]
  rfl

theorem modifyValue_map_normOption {f : OptionValue → OptionValue} (hf : KeepsStrings f) (idx : Nat)
    (opts : OptionTable) :
    modifyValue idx f (opts.map normOption) = (modifyValue idx f opts).map normOption := by
  unfold modifyValue
  apply ext_getElem?
  intro i
  rw [List.getElem?_modify, List.getElem?_map, List.getElem?_map, List.getElem?_modify]
  cases opts[i]? with
  | none => rfl
  | some o =>
    by_cases hi : idx = i
    · simp [hi, normOption, hf.norm]
    · simp [hi]

theorem valueAt_map_normOption (opts : OptionTable) (idx : Nat) :
    valueAt (opts.map normOption) idx = (valueAt opts idx).norm := by
  unfold valueAt
  rw [List.getElem?_map]
  cases opts[idx]? <;> rfl

theorem norm_u (v : OptionValue) : v.norm.u = v.u := by
  cases v with
  | string s =>
    cases s with
    | none => rfl
    | some s => cases s <;> rfl
  | _ => rfl

theorem norm_c (v : OptionValue) : v.norm.c = v.c := by
  cases v with
  | string s =>
    cases s with
    | none => rfl
    | some s => cases s <;> rfl
  | _ => rfl

theorem unblacken_map_normOption (opts defs : OptionTable) :
    unblacken (opts.map normOption) defs = (unblacken opts defs).map normOption := by
  have hsys (idx : Nat) : isSysColour (opts.map normOption) idx = isSysColour opts idx := by
    unfold isSysColour
    rw [index_map_normOption, index_map_normOption]
  unfold unblacken
  simp only [hsys, valueAt_map_normOption, norm_c, length_map]
  split
  · apply ext_getElem?
    intro i
    rw [List.getElem?_mapIdx, List.getElem?_map, List.getElem?_map, List.getElem?_mapIdx]
    cases opts[i]? with
    | none => rfl
    | some o =>
      obtain ⟨key, value⟩ := o
      cases value with
      | string s =>
        cases s with
        | none => rfl
        | some s => cases s <;> rfl
      | colour c =>
        simp only [Option.map_some, normOption, OptionValue.norm]
        split <;> rfl
      | _ => rfl
  · rfl

theorem validate_map_normOption (opts defs : OptionTable) :
    validate (opts.map normOption) defs = (validate opts defs).map normOption := by
  unfold validate
  simp only [index_map_normOption, modifyValue_map_normOption (keepsStrings_mapInteger _),
    modifyValue_map_normOption (keepsStrings_mapUint _), unblacken_map_normOption, valueAt_map_normOption, norm_u]

theorem validate_of_strings (h : ∀ o ∈ opts, ∃ s, o.value = .string s) (defs : OptionTable) :
    validate opts defs = opts := by
  have hmodify {f : OptionValue → OptionValue} (hf : KeepsStrings f) (idx : Nat) : modifyValue idx f opts = opts := by
    unfold modifyValue
    apply ext_getElem?
    intro i
    rw [List.getElem?_modify]
    cases ho : opts[i]? with
    | none => rfl
    | some o =>
      obtain ⟨s, hs⟩ := h o (mem_of_getElem? ho)
      split
      · have hvalue : f o.value = o.value := by rw [hs, hf.string]
        exact congrArg (fun v => some { o with value := v }) hvalue
      · rfl
  have hunblacken : unblacken opts defs = opts := by
    unfold unblacken
    dsimp only
    split
    · apply ext_getElem?
      intro i
      rw [List.getElem?_mapIdx]
      cases ho : opts[i]? with
      | none => rfl
      | some o =>
        obtain ⟨s, hs⟩ := h o (mem_of_getElem? ho)
        rw [Option.map_some, hs]
    · rfl
  unfold validate
  simp only [hmodify (keepsStrings_mapInteger _), hmodify (keepsStrings_mapUint _), hunblacken]

theorem read_write (hvalid : ValidTable opts) (halike : Alike opts defs) (hvalidate : validate opts defs = opts)
    (hfits : ∀ p ∈ opts.zip defs, isSet p.1.value p.2.value = true → FitsLine p.1) :
    SameOptions (read (write opts defs) defs defs) opts := by
  have hread := readAll_write halike hvalid.isKey hvalid.distinct hvalid.plain
    (fun p (hp : p ∈ ([] : OptionTable)) => absurd hp not_mem_nil) hfits
  rw [nil_append, nil_append] at hread
  have hsame : (List.zipWith loaded opts defs).map normOption = opts.map normOption := by
    clear hread hvalid hvalidate hfits
    induction halike with
    | nil => rfl
    | cons hod _ ih =>
      rw [zipWith_cons_cons, map_cons, map_cons, ih, normOption_loaded hod]
  unfold SameOptions read
  change (validate (readAll defs (write opts defs)) defs).map normOption = _
  rw [hread, ← validate_map_normOption, hsame, validate_map_normOption, hvalidate]

/-! ## A line that does not fit -/

/-- A string of the option with this key is one that was read from a single line. -/
def Short (key : Bytes) (opts : OptionTable) : Prop :=
  ∀ o ∈ opts, o.key = key → ∀ s, o.value = .string (some s) → key.length + 1 + s.length ≤ 1023

theorem string_of_strToOption {v : OptionValue} (h : strToOption value v = .string (some s)) : s = value := by
  cases v with
  | string _ =>
    unfold strToOption at h
    dsimp only at h
    split at h
    · cases h
    · cases h
      rfl
  | colour c =>
    unfold strToOption at h
    dsimp only at h
    split at h <;> cases h
  | _ => cases h

theorem mem_setOption {o : NsOption} (ho : o ∈ setOption key value opts) :
    o ∈ opts ∨ lower key = lower o.key ∧ ∃ v, o.value = strToOption value v := by
  induction opts with
  | nil => cases ho
  | cons p opts ih =>
    unfold setOption at ho
    split at ho
    · next heq =>
      rcases mem_cons.mp ho with rfl | ho
      · exact .inr ⟨strcasecmp_eq_iff.mp heq, _, rfl⟩
      · exact .inl (mem_cons_of_mem _ ho)
    · rcases mem_cons.mp ho with rfl | ho
      · exact .inl mem_cons_self
      · exact (ih ho).imp_left (mem_cons_of_mem _)

theorem length_eq_of_lower_eq {a b : Bytes} (h : lower a = lower b) : a.length = b.length := by
  have hlength := congrArg List.length h
  unfold lower at hlength
  rwa [length_map, length_map] at hlength

theorem Short.optionLine (h : Short key opts) (hline : line.length ≤ 1023) : Short key (optionLine opts line) := by
  unfold Nsoption.optionLine
  cases hkv : getKeyValue line with
  | error _ => exact h
  | ok kv =>
    obtain ⟨k, v⟩ := kv
    have hle := length_getKeyValue_le hkv
    intro o ho hkey s hs
    rcases mem_setOption ho with ho | ⟨hlower, w, hw⟩
    · exact h o ho hkey s hs
    · have hlength := length_eq_of_lower_eq hlower
      obtain rfl := string_of_strToOption (hw.symm.trans hs)
      rw [hkey] at hlength
      omega

theorem short_of_long (hvalid : IsKey option.key) (hplain : Plain option.value)
    (hlong : 1023 < (lineBody option).length) (hmem : option.key ∈ opts.map NsOption.key)
    (hdistinct : (opts.map fun o => lower o.key).Nodup) (rest : Bytes) :
    Short option.key (readAll opts (lineBody option ++ rest)) := by
  obtain ⟨hnewline, hnul⟩ := lineBody_plain hvalid hplain
  have hlt := hvalid.length_lt
  have hshort : Short option.key (Nsoption.optionLine opts ((lineBody option).take 1023)) := by
    have htake : (lineBody option).take 1023 =
        option.key ++ (':' : UInt8) :: (printValue option.value).take (1022 - option.key.length) := by
      unfold lineBody
      rw [take_append, take_of_length_le (by omega),
        show 1023 - option.key.length = 1022 - option.key.length + 1 by omega, take_succ_cons]
    have hne : (printValue option.value).take (1022 - option.key.length) ≠ [] := by
      unfold lineBody at hlong
      rw [length_append, length_cons] at hlong
      exact ne_nil_of_length_pos (by rw [length_take]; omega)
    have hlast : ((printValue option.value).take (1022 - option.key.length)).getLast? ≠ some ('\n' : UInt8) :=
      fun heq => (plain_printValue hplain).1 (mem_of_mem_take (mem_of_getLast? heq))
    obtain ⟨o, ho, hkey⟩ := mem_map.mp hmem
    obtain ⟨pre, post, rfl⟩ := append_of_mem ho
    rw [map_append, map_cons, nodup_append, nodup_cons] at hdistinct
    have hpre : ∀ p ∈ pre, lower p.key ≠ lower o.key := fun p hp =>
      hdistinct.2.2 _ (mem_map_of_mem hp) _ mem_cons_self
    unfold Nsoption.optionLine
    rw [htake, getKeyValue_append hvalid hne, if_neg hlast]
    dsimp only
    rw [← hkey, setOption_append hpre]
    intro p hp hpkey s hs
    rcases mem_append.mp hp with hp | hp
    · exact absurd (congrArg lower hpkey) (hpre p hp)
    · rcases mem_cons.mp hp with rfl | hp
      · obtain rfl := string_of_strToOption hs
        rw [length_take, hkey]
        omega
      · exact absurd (mem_map.mpr ⟨p, hp, congrArg lower hpkey⟩) hdistinct.2.1.1
  rw [readAll_of_ne_nil (append_ne_nil_of_left_ne_nil (ne_nil_of_length_pos (by omega)) rest),
    fgets_long hnewline (by omega), cstr_eq_self fun hmem => hnul (mem_of_mem_take hmem)]
  exact readAll_induct (fun _ _ hline h => h.optionLine hline) hshort

theorem mem_modifyValue {f : OptionValue → OptionValue} {idx : Nat} {o : NsOption} (ho : o ∈ modifyValue idx f opts) :
    ∃ p ∈ opts, o.key = p.key ∧ (o.value = p.value ∨ o.value = f p.value) := by
  obtain ⟨i, hi⟩ := mem_iff_getElem?.mp ho
  unfold modifyValue at hi
  rw [List.getElem?_modify] at hi
  obtain ⟨p, hp, rfl⟩ := Option.map_eq_some_iff.mp hi
  refine ⟨p, mem_of_getElem? hp, ?_⟩
  split
  · exact ⟨rfl, .inr rfl⟩
  · exact ⟨rfl, .inl rfl⟩

theorem mem_unblacken {o : NsOption} (ho : o ∈ unblacken opts defs) :
    ∃ p ∈ opts, o.key = p.key ∧ (o.value = p.value ∨ ∃ c, o.value = .colour c) := by
  unfold unblacken at ho
  dsimp only at ho
  split at ho
  · obtain ⟨i, hi⟩ := mem_iff_getElem?.mp ho
    rw [List.getElem?_mapIdx] at hi
    obtain ⟨p, hp, rfl⟩ := Option.map_eq_some_iff.mp hi
    refine ⟨p, mem_of_getElem? hp, ?_⟩
    split
    · split
      · exact ⟨rfl, .inr ⟨_, rfl⟩⟩
      · exact ⟨rfl, .inl rfl⟩
    · exact ⟨rfl, .inl rfl⟩
  · exact ⟨o, ho, rfl, .inl rfl⟩

theorem Short.modifyValue {f : OptionValue → OptionValue} (h : Short key opts) (hf : KeepsStrings f) (idx : Nat) :
    Short key (modifyValue idx f opts) := by
  intro o ho hkey s hs
  obtain ⟨p, hp, hpkey, hvalue | hvalue⟩ := mem_modifyValue ho
  · exact h p hp (hpkey.symm.trans hkey) s (hvalue.symm.trans hs)
  · exact h p hp (hpkey.symm.trans hkey) s (hf.other _ _ (hvalue.symm.trans hs))

theorem Short.unblacken (h : Short key opts) (defs : OptionTable) : Short key (unblacken opts defs) := by
  intro o ho hkey s hs
  obtain ⟨p, hp, hpkey, hvalue | ⟨c, hvalue⟩⟩ := mem_unblacken ho
  · exact h p hp (hpkey.symm.trans hkey) s (hvalue.symm.trans hs)
  · cases hvalue.symm.trans hs

theorem Short.validate (h : Short key opts) : Short key (validate opts defs) := by
  unfold Nsoption.validate
  extract_lets opts₁ opts₂ opts₃ opts₄ opts₅ opts₆ opts₇ timeout
  have h₁ : Short key opts₁ := h.modifyValue (keepsStrings_mapInteger _) _
  have h₂ : Short key opts₂ := h₁.modifyValue (keepsStrings_mapInteger _) _
  have h₃ : Short key opts₃ := h₂.modifyValue (keepsStrings_mapInteger _) _
  have h₄ : Short key opts₄ := h₃.modifyValue (keepsStrings_mapInteger _) _
  have h₅ : Short key opts₅ := h₄.unblacken defs
  have h₆ : Short key opts₆ := h₅.modifyValue (keepsStrings_mapUint _) _
  have h₇ : Short key opts₇ := h₆.modifyValue (keepsStrings_mapUint _) _
  exact h₇.modifyValue (keepsStrings_mapUint _) _

/-! ## Exactly when options survive -/

theorem Alike.map_key (h : Alike opts defs) : defs.map NsOption.key = opts.map NsOption.key := by
  induction h with
  | nil => rfl
  | cons hod _ ih => rw [map_cons, map_cons, ih, hod.1]

theorem map_key_readAll (opts : OptionTable) : (readAll opts file).map NsOption.key = opts.map NsOption.key :=
  readAll_induct (I := fun t => t.map NsOption.key = opts.map NsOption.key)
    (fun t _ _ h => (map_key_optionLine t).trans h) rfl

theorem readAll_write_append (hkeys : ∀ o ∈ opts, IsKey o.key) (hplain : ∀ o ∈ opts, Plain o.value)
    (table : OptionTable) (rest : Bytes) :
    readAll table (write opts defs ++ rest) = readAll (readAll table (write opts defs)) rest := by
  induction opts generalizing defs table with
  | nil => rfl
  | cons o opts ih =>
    obtain ⟨hkey, hkeys⟩ := forall_mem_cons.mp hkeys
    obtain ⟨hplain, hplains⟩ := forall_mem_cons.mp hplain
    cases defs with
    | nil => rfl
    | cons d defs =>
      have hwrite : write (o :: opts) (d :: defs) =
          (if isSet o.value d.value then outputValueFile o else []) ++ write opts defs := rfl
      rw [hwrite, append_assoc]
      split
      · have hnewline := (lineBody_plain hkey hplain).1
        rw [outputValueFile_eq, append_assoc, append_assoc, singleton_append, singleton_append,
          readAll_line_append hnewline, readAll_line_append hnewline (write opts defs)]
        exact ih hkeys hplains _
      · exact ih hkeys hplains table

theorem write_take_drop (i : Nat) (opts defs : OptionTable) :
    write opts defs = write (opts.take i) (defs.take i) ++ write (opts.drop i) (defs.drop i) := by
  unfold write
  rw [← flatMap_append, zip_eq_zipWith, zip_eq_zipWith, zip_eq_zipWith, ← take_zipWith,
    ← drop_zipWith, take_append_drop]

theorem eq_of_norm_eq {v : OptionValue} (hs : s ≠ []) (h : v.norm = (OptionValue.string (some s)).norm) :
    v = .string (some s) := by
  obtain ⟨c, s, rfl⟩ := exists_cons_of_ne_nil hs
  cases v with
  | string t =>
    cases t with
    | none => cases h
    | some t =>
      cases t with
      | nil => cases h
      | cons b t => exact h
  | _ => cases h

theorem fitsLine_of_sameOptions (hvalid : ValidTable opts) (halike : Alike opts defs)
    (hsame : SameOptions (read (write opts defs) defs defs) opts) (p : NsOption × NsOption)
    (hp : p ∈ opts.zip defs) (hset : isSet p.1.value p.2.value = true) : FitsLine p.1 := by
  intro s hs
  by_contra hlong
  obtain ⟨o, d⟩ := p
  dsimp only at hs hset hlong
  -- The table up to this option and from it on.
  obtain ⟨i, hi⟩ := mem_iff_getElem?.mp hp
  obtain ⟨hopt, hdef⟩ := List.getElem?_zip_eq_some.mp hi
  have hmem := mem_of_getElem? hopt
  have hkey := hvalid.isKey o hmem
  have hplain := hvalid.plain o hmem
  have hsplit : write opts defs = write (opts.take i) (defs.take i) ++
      (lineBody o ++ ('\n' : UInt8) :: write (opts.drop (i + 1)) (defs.drop (i + 1))) := by
    obtain ⟨hlt, hget⟩ := List.getElem?_eq_some_iff.mp hopt
    obtain ⟨hlt', hget'⟩ := List.getElem?_eq_some_iff.mp hdef
    have hrest : write (opts.drop i) (defs.drop i) =
        outputValueFile o ++ write (opts.drop (i + 1)) (defs.drop (i + 1)) := by
      rw [drop_eq_getElem_cons hlt, drop_eq_getElem_cons hlt', hget, hget']
      change (if isSet o.value d.value then outputValueFile o else []) ++ _ = _
      rw [if_pos hset]
      rfl
    rw [write_take_drop i, hrest, outputValueFile_eq, append_assoc, singleton_append]
  have hbody : 1023 < (lineBody o).length := by
    unfold lineBody
    rw [length_append, length_cons, hs]
    change 1023 < o.key.length + (s.length + 1)
    omega
  have hshort : Short o.key (readAll defs (write opts defs)) := by
    rw [hsplit, readAll_write_append (fun p hp => hvalid.isKey p (mem_of_mem_take hp))
      (fun p hp => hvalid.plain p (mem_of_mem_take hp))]
    apply short_of_long hkey hplain hbody
    · rw [map_key_readAll, halike.map_key]
      exact mem_map_of_mem hmem
    · have hsame : (readAll defs (write (opts.take i) (defs.take i))).map NsOption.key = opts.map NsOption.key :=
        (map_key_readAll defs).trans halike.map_key
      have hkeys := congrArg (List.map lower) hsame
      rw [map_map, map_map] at hkeys
      change (List.map (lower ∘ NsOption.key) _).Nodup
      rw [hkeys]
      exact hvalid.distinct
  -- The option comes out with the same string.
  have hread : Short _ (read (write opts defs) defs defs) := hshort.validate
  have hnorm : normOption o ∈ (read (write opts defs) defs defs).map normOption := by
    rw [hsame]
    exact mem_map_of_mem hmem
  obtain ⟨x, hx, hxo⟩ := mem_map.mp hnorm
  have hnormKey : (normOption x).key = (normOption o).key := congrArg NsOption.key hxo
  have hxkey : x.key = o.key := hnormKey
  have hxvalue : x.value = .string (some s) := by
    have hvalue : (normOption x).value = (normOption o).value := congrArg NsOption.value hxo
    have hne : s ≠ [] := ne_nil_of_length_pos (by have hlt := hkey.length_lt; omega)
    exact eq_of_norm_eq hne (hvalue.trans (congrArg OptionValue.norm hs))
  exact hlong (hread x hx hxkey s hxvalue)

/-- Options survive a save and a load exactly if the lines of the strings that are written fit into the buffer. -/
theorem read_write_iff (hvalid : ValidTable opts) (halike : Alike opts defs) (hvalidate : validate opts defs = opts) :
    SameOptions (read (write opts defs) defs defs) opts ↔
      ∀ p ∈ opts.zip defs, isSet p.1.value p.2.value = true → FitsLine p.1 :=
  ⟨fitsLine_of_sameOptions hvalid halike, read_write hvalid halike hvalidate⟩

/-! ## The user's languages -/

def languageTable (languages : Option Bytes) : OptionTable := [⟨str "accept_language", .string languages⟩]

theorem isKey_accept_language : IsKey (str "accept_language") := by
  have hword : (str "accept_language").all (fun c => Ascii.isAlphanumerical c || c == '_') = true := by decide
  refine ⟨by decide, fun c hc => ?_, by decide⟩
  simpa using all_eq_true.mp hword c hc

theorem validTable_languageTable {languages : Option Bytes}
    (h : ∀ s ∈ languages, ('\n' : UInt8) ∉ s ∧ 0 ∉ s) : ValidTable (languageTable languages) := by
  refine ⟨?_, nodup_singleton _, ?_⟩
  · intro o ho
    obtain rfl := mem_singleton.mp ho
    exact isKey_accept_language
  · intro o ho
    obtain rfl := mem_singleton.mp ho
    cases languages with
    | none => trivial
    | some s => exact h s rfl

theorem alike_languageTable (languages default : Option Bytes) :
    Alike (languageTable languages) (languageTable default) := .cons ⟨rfl, trivial⟩ .nil

theorem validate_languageTable (languages : Option Bytes) (defs : OptionTable) :
    validate (languageTable languages) defs = languageTable languages := by
  apply validate_of_strings
  intro o ho
  obtain rfl := mem_singleton.mp ho
  exact ⟨languages, rfl⟩

theorem read_write_iff_language :
    SameOptions (read (write (languageTable (str "en")) (languageTable none)) (languageTable none) (languageTable none))
        (languageTable (str "en")) ↔
      ∀ p ∈ (languageTable (str "en")).zip (languageTable none),
        isSet p.1.value p.2.value = true → FitsLine p.1 :=
  read_write_iff
    (validTable_languageTable fun s hs => by
      cases hs
      decide)
    (alike_languageTable _ _) (validate_languageTable _ _)

/-- A list of languages that is longer than the buffer is cut off. -/
theorem not_read_write : ¬ ∀ opts defs : OptionTable, ValidTable opts → Alike opts defs → validate opts defs = opts →
    SameOptions (read (write opts defs) defs defs) opts := by
  intro hclaim
  have hbyte {c : UInt8} (hc : c ≠ 'e') : c ∉ List.replicate 1100 ('e' : UInt8) := fun hmem =>
    hc (eq_of_mem_replicate hmem)
  have hvalid : ValidTable (languageTable (some (List.replicate 1100 ('e' : UInt8)))) :=
    validTable_languageTable fun s hs => by
      cases hs
      exact ⟨hbyte (by decide), hbyte (by decide)⟩
  have halike := alike_languageTable (some (List.replicate 1100 ('e' : UInt8))) none
  have hsame := hclaim _ _ hvalid halike (validate_languageTable _ _)
  have hfits := fitsLine_of_sameOptions hvalid halike hsame _ mem_cons_self rfl _ rfl
  rw [length_replicate] at hfits
  exact absurd hfits (by decide)

end Nami.Nsoption
