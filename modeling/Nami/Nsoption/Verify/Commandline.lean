import Nami.Nsoption.Commandline

/-!
# The command line sets what it names

An option is set that is not named when a name that is followed by `=` is only the beginning of its key, and an option
whose value is missing is removed from the arguments without being set.
-/

namespace Nami.Nsoption

open List

variable {argv args : List Bytes} {arg name val : Bytes} {opts : OptionTable} {idx fuel : Nat}

/-! ## What the arguments say -/

/-- What the arguments name: whether the value stands behind a `=`, the name and the value. -/
structure Setting where
  inline : Bool
  name : Bytes
  val : Bytes
  deriving DecidableEq, Repr

/-- The name that an argument begins with. -/
def optionName (arg : Bytes) : Bytes := (arg.drop 2).takeWhile fun c : UInt8 => c ≠ '='

/-- What follows the name, from the `=` on. -/
def optionRest (arg : Bytes) : Bytes := (arg.drop 2).dropWhile fun c : UInt8 => c ≠ '='

/-- The longest prefix of well-formed arguments, and the arguments that are left. -/
def splitArguments : List Bytes → List Setting × List Bytes
  | [] => ([], [])
  | [arg] =>
    if isOption arg ∧ optionRest arg ≠ [] then ([⟨true, optionName arg, (optionRest arg).tail⟩], []) else ([], [arg])
  | arg :: val :: args =>
    if isOption arg then
      if optionRest arg = [] then
        let (settings, left) := splitArguments args
        (⟨false, optionName arg, val⟩ :: settings, left)
      else
        let (settings, left) := splitArguments (val :: args)
        (⟨true, optionName arg, (optionRest arg).tail⟩ :: settings, left)
    else ([], arg :: val :: args)

/-- The option whose key is the name. -/
def namedOption (name : Bytes) (opts : OptionTable) : Option Nat := opts.findIdx? fun option => option.key == name

/-- The options that are set are those that are named, each to its value, and the arguments that say so are removed. -/
structure SetsAsNamed (argv : List Bytes) (opts defs : OptionTable) : Prop where
  settings : (commandLoop argv argv.length 1 opts).settings =
    (splitArguments argv.tail).1.map fun setting => (namedOption setting.name opts, setting.val)
  result : commandline (some argv) (some opts) none defs =
    .ok (argv.take 1 ++ (splitArguments argv.tail).2,
      validate ((splitArguments argv.tail).1.foldl
        (fun opts setting => setFound (namedOption setting.name opts) setting.val opts) opts) defs)

/-- The first key that begins with a name before a `=`, if there is one, is the name. -/
def Unambiguous (settings : List Setting) (opts : OptionTable) : Prop :=
  ∀ setting ∈ settings, setting.inline = true →
    opts.findIdx? (fun option => setting.name.isPrefixOf option.key) = namedOption setting.name opts

/-- The last argument is an option that lacks its value. -/
def ValueMissing (left : List Bytes) : Prop := ∃ arg, left = [arg] ∧ isOption arg = true ∧ optionRest arg = []

theorem splitArguments_of_not_option (h : isOption arg = false) : splitArguments (arg :: args) = ([], arg :: args) := by
  cases args with
  | nil => simp [splitArguments, h]
  | cons val args => simp [splitArguments, h]

theorem splitArguments_inline (h : isOption arg = true) (hrest : optionRest arg ≠ []) :
    splitArguments (arg :: args) =
      (⟨true, optionName arg, (optionRest arg).tail⟩ :: (splitArguments args).1, (splitArguments args).2) := by
  cases args with
  | nil => simp [splitArguments, h, hrest]
  | cons val args => simp [splitArguments, h, hrest]

theorem splitArguments_next (h : isOption arg = true) (hrest : optionRest arg = []) :
    splitArguments (arg :: val :: args) =
      (⟨false, optionName arg, val⟩ :: (splitArguments args).1, (splitArguments args).2) := by
  simp [splitArguments, h, hrest]

theorem splitArguments_missing (hrest : optionRest arg = []) : splitArguments [arg] = ([], [arg]) := by
  simp [splitArguments, hrest]

/-! ## Names and keys -/

/-- The option that the loop finds for a setting. -/
def Setting.found (setting : Setting) (opts : OptionTable) : Option Nat :=
  if setting.inline then opts.findIdx? fun option => setting.name.isPrefixOf option.key
  else namedOption setting.name opts

theorem take_append_length {s t : Bytes} : (s ++ t).take s.length = s := by
  rw [take_append_of_le_length le_rfl, take_length]

theorem findOption_inline (arg : Bytes) :
    findOption (arg.drop 2) ((arg.drop 2).takeWhile fun c : UInt8 => c ≠ '=').length opts =
      opts.findIdx? fun option => (optionName arg).isPrefixOf option.key := by
  have htake : (arg.drop 2).take (optionName arg).length = optionName arg := by
    conv_lhs => rw [← takeWhile_append_dropWhile (p := fun c : UInt8 => decide (c ≠ '=')) (l := arg.drop 2)]
    exact take_append_length
  unfold findOption
  congr 1
  funext option
  show ((arg.drop 2).take (optionName arg).length == option.key.take (optionName arg).length) = _
  rw [htake, Bool.eq_iff_iff, beq_iff_eq, isPrefixOf_iff_prefix, prefix_iff_eq_take]

theorem findOption_next (opts : OptionTable) (hrest : optionRest arg = []) (hlength : 2 ≤ arg.length) :
    findOption (arg.drop 2) arg.length opts = namedOption (optionName arg) opts := by
  have hname : arg.drop 2 = optionName arg := by
    have happend := takeWhile_append_dropWhile (p := fun c : UInt8 => decide (c ≠ '=')) (l := arg.drop 2)
    change optionName arg ++ optionRest arg = _ at happend
    rw [hrest, append_nil] at happend
    exact happend.symm
  have hlen : (optionName arg).length + 2 = arg.length := by
    rw [← hname, length_drop]
    omega
  unfold findOption namedOption
  congr 1
  funext option
  rw [hname, ← hlen, take_of_length_le (by omega), Bool.eq_iff_iff, beq_iff_eq, beq_iff_eq, eq_comm]
  constructor
  · intro h
    have hkey := congrArg List.length h
    rw [length_take] at hkey
    rw [take_of_length_le (by omega)] at h
    exact h
  · intro h
    rw [take_of_length_le (by rw [h]; omega), h]

theorem map_key_setFound {found : Option Nat} : (setFound found val opts).map NsOption.key = opts.map NsOption.key := by
  cases found with
  | none => rfl
  | some idx =>
    unfold setFound modifyValue
    rw [Option.elim_some]
    apply ext_getElem?
    intro i
    rw [List.getElem?_map, List.getElem?_map, List.getElem?_modify]
    cases opts[i]? with
    | none => rfl
    | some option => by_cases h : idx = i <;> simp [h]

theorem findIdx?_eq_of_keys {opts' : OptionTable} {p : Bytes → Bool}
    (h : opts'.map NsOption.key = opts.map NsOption.key) :
    opts'.findIdx? (fun option => p option.key) = opts.findIdx? (fun option => p option.key) := by
  have hmap (opts : OptionTable) : opts.findIdx? (fun option => p option.key) = (opts.map NsOption.key).findIdx? p := by
    rw [List.findIdx?_map]
    rfl
  rw [hmap, hmap, h]

theorem Setting.found_setFound {setting : Setting} {found : Option Nat} :
    setting.found (setFound found val opts) = setting.found opts := by
  unfold Setting.found namedOption
  split
  · exact findIdx?_eq_of_keys map_key_setFound
  · exact findIdx?_eq_of_keys (p := fun key => key == setting.name) map_key_setFound

theorem namedOption_setFound {found : Option Nat} :
    namedOption name (setFound found val opts) = namedOption name opts :=
  findIdx?_eq_of_keys (p := fun key => key == name) map_key_setFound

/-! ## The loop -/

theorem two_le_of_isOption (h : isOption arg = true) : 2 ≤ arg.length := by
  unfold isOption at h
  simp only [Bool.not_eq_true', Bool.or_eq_false_iff, decide_eq_false_iff_not] at h
  omega

/-- What the loop does with the arguments from its index on. -/
structure LoopSpec (argv : List Bytes) (idx : Nat) (opts : OptionTable) (loop : CommandLoop) : Prop where
  settings : loop.settings =
    (splitArguments (argv.drop idx)).1.map fun setting => (setting.found opts, setting.val)
  opts : loop.opts = (splitArguments (argv.drop idx)).1.foldl
    (fun opts setting => setFound (setting.found opts) setting.val opts) opts
  ge : idx ≤ loop.idx
  le : idx ≤ argv.length → loop.idx ≤ argv.length
  left : ¬ValueMissing (splitArguments (argv.drop idx)).2 →
    argv.drop loop.idx = (splitArguments (argv.drop idx)).2
  missing : ValueMissing (splitArguments (argv.drop idx)).2 → loop.idx = argv.length

theorem LoopSpec.stop (h : splitArguments (argv.drop idx) = ([], argv.drop idx))
    (hmissing : ¬ValueMissing (argv.drop idx)) : LoopSpec argv idx opts { idx, opts, settings := [] } where
  settings := by rw [h]; rfl
  opts := by rw [h]; rfl
  ge := le_rfl
  le := id
  left := by
    intro _
    rw [h]
  missing := by
    intro hm
    rw [h] at hm
    exact absurd hm hmissing

theorem LoopSpec.cons (setting : Setting) (next : Nat) {loop : CommandLoop} (h : splitArguments (argv.drop idx) =
      (setting :: (splitArguments (argv.drop next)).1, (splitArguments (argv.drop next)).2))
    (hnext : idx ≤ next) (hle : next ≤ argv.length)
    (hloop : LoopSpec argv next (setFound (setting.found opts) setting.val opts) loop) :
    LoopSpec argv idx opts { loop with settings := (setting.found opts, setting.val) :: loop.settings } where
  settings := by
    rw [h, map_cons]
    apply congrArg (_ :: ·)
    rw [hloop.settings]
    apply map_congr_left
    intro other _
    rw [Setting.found_setFound]
  opts := by
    rw [h, foldl_cons]
    exact hloop.opts
  ge := hnext.trans hloop.ge
  le := fun _ => hloop.le hle
  left := by
    rw [h]
    exact hloop.left
  missing := by
    rw [h]
    exact hloop.missing

theorem getElem?_of_drop {i : Nat} (h : argv.drop idx = arg :: args) :
    argv[idx]? = some arg ∧ argv.drop (idx + 1) = args ∧ argv[idx + i + 1]? = args[i]? := by
  have hdrop : argv.drop (idx + 1) = args := by
    rw [← drop_drop, h]
    rfl
  refine ⟨?_, hdrop, ?_⟩
  · have hhead := List.head?_drop (l := argv) (i := idx)
    rw [h] at hhead
    exact hhead.symm
  · rw [← hdrop, List.getElem?_drop]
    congr 1
    omega

theorem loopSpec_commandLoop (hfuel : argv.length ≤ idx + fuel) :
    LoopSpec argv idx opts (commandLoop argv fuel idx opts) := by
  have hnil (idx : Nat) (opts : OptionTable) (h : argv.drop idx = []) :
      LoopSpec argv idx opts { idx, opts, settings := [] } := by
    apply LoopSpec.stop
    · rw [h]
      rfl
    · rintro ⟨arg, harg, -⟩
      rw [h] at harg
      cases harg
  induction fuel generalizing idx opts with
  | zero => exact hnil idx opts (drop_eq_nil_of_le hfuel)
  | succ fuel ih =>
    unfold commandLoop readArgument
    cases hargs : argv.drop idx with
    | nil =>
      have hnone : argv[idx]? = none := List.getElem?_eq_none (drop_eq_nil_iff.1 hargs)
      rw [hnone]
      exact hnil idx opts hargs
    | cons arg args =>
      obtain ⟨harg, hdrop, hnext⟩ := getElem?_of_drop (i := 0) hargs
      rw [harg]
      dsimp only
      cases hoption : isOption arg with
      | false =>
        rw [if_neg Bool.false_ne_true]
        apply LoopSpec.stop
        · rw [hargs, splitArguments_of_not_option hoption]
        · rintro ⟨other, hother, hopt, -⟩
          rw [hargs] at hother
          obtain rfl := (List.cons.inj hother).1
          rw [hoption] at hopt
          cases hopt
      | true =>
        rw [if_pos rfl]
        cases hrest : optionRest arg with
        | nil =>
          have hdropWhile := hrest
          unfold optionRest at hdropWhile
          rw [Nat.add_zero] at hnext
          rw [hdropWhile, hnext]
          cases args with
          | nil =>
            -- the value is missing
            have hlength : argv.length = idx + 1 := by
              have hlen := congrArg List.length hargs
              rw [length_drop, length_singleton] at hlen
              omega
            have hsplit : splitArguments (argv.drop idx) = ([], [arg]) := by
              rw [hargs, splitArguments_missing hrest]
            have hmissing : ValueMissing [arg] := ⟨arg, rfl, hoption, hrest⟩
            exact ⟨by rw [hsplit]; rfl, by rw [hsplit]; rfl, Nat.le_succ _, fun _ => hlength.ge,
              by rw [hsplit]; exact fun h => absurd hmissing h, fun _ => hlength.symm⟩
          | cons val args =>
            have hdrop' : argv.drop (idx + 2) = args := (getElem?_of_drop (i := 0) hdrop).2.1
            have hfound := findOption_next opts hrest (two_le_of_isOption hoption)
            dsimp only [List.getElem?_cons_zero]
            rw [hfound]
            apply LoopSpec.cons ⟨false, optionName arg, val⟩ (idx + 2)
            · rw [hargs, hdrop', splitArguments_next hoption hrest]
            · omega
            · have hlen := congrArg List.length hargs
              rw [length_drop, length_cons, length_cons] at hlen
              omega
            · exact ih (by omega)
        | cons equals rest =>
          have hdropWhile := hrest
          unfold optionRest at hdropWhile
          rw [hdropWhile]
          dsimp only
          rw [findOption_inline]
          apply LoopSpec.cons ⟨true, optionName arg, rest⟩ (idx + 1)
          · rw [hargs, hdrop, splitArguments_inline hoption (by rw [hrest]; exact cons_ne_nil _ _), hrest]
            rfl
          · omega
          · have hlen := congrArg List.length hargs
            rw [length_drop, length_cons] at hlen
            omega
          · exact ih (by omega)

/-! ## Removing the arguments -/

theorem length_moveArguments {mv : Nat} : (moveArguments idx argv mv).length = argv.length := by
  induction mv with
  | zero => rfl
  | succ mv ih =>
    unfold moveArguments
    rw [length_set, ih]

theorem getElem?_moveArguments {mv i : Nat} (hidx : 1 ≤ idx) (hmv : mv + idx ≤ argv.length) :
    (moveArguments idx argv mv)[i]? = if 1 ≤ i ∧ i ≤ mv then argv[i - 1 + idx]? else argv[i]? := by
  induction mv generalizing i with
  | zero =>
    rw [if_neg (by omega)]
    rfl
  | succ mv ih =>
    have hnext := ih (i := mv + idx) (by omega)
    rw [if_neg (by omega)] at hnext
    unfold moveArguments
    dsimp only
    rw [List.getElem?_set, length_moveArguments, getD_eq_getElem?_getD, hnext, ih (by omega)]
    by_cases hi : i = mv + 1
    · subst hi
      rw [if_pos rfl, if_pos (by omega), if_pos (by omega), Nat.add_sub_cancel,
        List.getElem?_eq_getElem (by omega : mv + idx < argv.length), Option.getD_some]
    · rw [if_neg (Ne.symm hi)]
      by_cases hle : 1 ≤ i ∧ i ≤ mv
      · rw [if_pos hle, if_pos (by omega)]
      · rw [if_neg hle, if_neg (by omega)]

theorem removeArguments_eq (hidx : 1 ≤ idx) (hle : idx ≤ argv.length ∨ argv = []) :
    removeArguments idx argv = argv.take 1 ++ argv.drop idx := by
  obtain hle | rfl := hle
  · apply ext_getElem?
    intro i
    unfold removeArguments
    rw [List.getElem?_take, getElem?_moveArguments hidx (by omega), List.getElem?_append, length_take,
      List.getElem?_take, List.getElem?_drop, Nat.min_eq_left (by omega)]
    by_cases hi : i = 0
    · subst hi
      simp
      omega
    · rw [if_neg (by omega : ¬i < 1)]
      by_cases hend : i < argv.length - (idx - 1)
      · rw [if_pos hend, if_pos (by omega), Nat.add_comm]
      · rw [if_neg hend, List.getElem?_eq_none (by omega)]
  · simp [removeArguments, moveArguments]

/-! ## The whole command line -/

theorem foldl_found {settings : List Setting}
    (h : ∀ setting ∈ settings, setting.found opts = namedOption setting.name opts) :
    settings.foldl (fun opts setting => setFound (setting.found opts) setting.val opts) opts =
      settings.foldl (fun opts setting => setFound (namedOption setting.name opts) setting.val opts) opts := by
  induction settings generalizing opts with
  | nil => rfl
  | cons setting settings ih =>
    rw [forall_mem_cons] at h
    rw [foldl_cons, foldl_cons, h.1]
    apply ih
    intro other hother
    rw [Setting.found_setFound, namedOption_setFound]
    exact h.2 other hother

theorem unambiguous_iff {settings : List Setting} :
    Unambiguous settings opts ↔ ∀ setting ∈ settings, setting.found opts = namedOption setting.name opts := by
  unfold Unambiguous Setting.found
  apply forall₂_congr
  intro setting _
  cases setting.inline with
  | false => simp
  | true => simp

/-- The command line sets the options that it names, and takes what it has processed from the arguments, when no name
before a `=` is only the beginning of the first key that begins with it and no value is missing. -/
theorem setsAsNamed_iff (argv : List Bytes) (opts defs : OptionTable) :
    SetsAsNamed argv opts defs ↔
      Unambiguous (splitArguments argv.tail).1 opts ∧ ¬ValueMissing (splitArguments argv.tail).2 := by
  have hloop : LoopSpec argv 1 opts (commandLoop argv argv.length 1 opts) := loopSpec_commandLoop (by omega)
  rw [unambiguous_iff]
  have hsettings := hloop.settings
  have hopts := hloop.opts
  have hleft := hloop.left
  have hmissing := hloop.missing
  rw [drop_one] at hsettings hopts hleft hmissing
  have hle : (commandLoop argv argv.length 1 opts).idx ≤ argv.length ∨ argv = [] := by
    cases argv with
    | nil => exact .inr rfl
    | cons arg argv => exact .inl (hloop.le (Nat.le_add_left _ _))
  have hresult : commandline (some argv) (some opts) none defs =
      .ok (argv.take 1 ++ argv.drop (commandLoop argv argv.length 1 opts).idx,
        validate (commandLoop argv argv.length 1 opts).opts defs) := by
    rw [← removeArguments_eq hloop.ge hle]
    rfl
  constructor
  · intro h
    refine ⟨fun setting hsetting => ?_, fun hm => ?_⟩
    · have hmap := hsettings.symm.trans h.settings
      exact congrArg Prod.fst (map_inj_left.1 hmap setting hsetting)
    · have hres := hresult.symm.trans h.result
      rw [hmissing hm, drop_length, append_nil, Except.ok.injEq, Prod.mk.injEq] at hres
      obtain ⟨arg, harg, -⟩ := hm
      rw [harg] at hres
      have hlen := congrArg List.length hres.1
      simp at hlen
  · rintro ⟨hfound, hcomplete⟩
    refine ⟨?_, ?_⟩
    · rw [hsettings]
      apply map_congr_left
      intro setting hsetting
      rw [hfound setting hsetting]
    · rw [hresult, hleft hcomplete, hopts, foldl_found hfound]

/-- The name `http` is the beginning of the key `http_proxy`, which is set though it is not named. -/
theorem not_setsAsNamed : ¬∀ (argv : List Bytes) (opts defs : OptionTable), SetsAsNamed argv opts defs := by
  intro h
  have hbad := (h [str "nami", str "--http=1"] [⟨str "http_proxy", .bool false⟩] []).settings
  exact absurd hbad (by decide)

end Nami.Nsoption
