import Nami.Fetch.Data
import Nami.Lib.Rfc2397

/-!
# What the fetcher for `data:` URLs delivers

The machine keeps, for each context, what its messages were and what is left of them. So a fetch that is freed without
being aborted delivered all of its messages but the headers that do not fit, whatever was done in callbacks.
-/

namespace Nami.Fetch.Data

open List
open Ascii
open Mimesniff (Trap)
open Rfc2397 (content header given mediaType base64Mark percentDecode body)

variable {decode : Bytes → Option Bytes} {f f' : Fetcher} {rest : Bytes} {c : Nat} {x : Ctx}

/-! ## Processing -/

theorem hexDigit_eq (c : UInt8) : Rfc2397.hexDigit c = if isHex c = true then some (xdigitToHex c).toNat else none := by
  revert c
  decide +kernel

theorem toNat_xdigitToHex_lt {c : UInt8} (h : isHex c = true) : (xdigitToHex c).toNat < 16 := by
  revert c
  decide +kernel

theorem shiftLeft_or : ∀ h < 16, ∀ l < 16, UInt8.ofNat h <<< 4 ||| UInt8.ofNat l = UInt8.ofNat (16 * h + l) := by
  decide +kernel

theorem escaped_eq (c c1 c2 : UInt8) : Rfc2397.escaped c c1 c2 =
    if c = '%' ∧ isHex c1 = true ∧ isHex c2 = true then some (xdigitToHex c1 <<< 4 ||| xdigitToHex c2) else none := by
  unfold Rfc2397.escaped
  rw [hexDigit_eq, hexDigit_eq]
  change (if c = ('%' : UInt8) then _ else none) = _
  by_cases hc : c = '%'
  · by_cases h1 : isHex c1 = true
    · by_cases h2 : isHex c2 = true
      · have hbyte := shiftLeft_or _ (toNat_xdigitToHex_lt h1) _ (toNat_xdigitToHex_lt h2)
        rw [UInt8.ofNat_toNat, UInt8.ofNat_toNat] at hbyte
        rw [if_pos hc, if_pos h1, if_pos h2, if_pos ⟨hc, h1, h2⟩, hbyte]
        rfl
      · rw [if_pos hc, if_pos h1, if_neg h2, if_neg (fun h : c = '%' ∧ _ => h2 h.2.2)]
        rfl
    · rw [if_pos hc, if_neg h1, if_neg (fun h : c = '%' ∧ _ => h1 h.2.1)]
      rfl
  · rw [if_neg hc, if_neg (fun h => hc h.1)]

theorem urlUnescape_eq : ∀ s : Bytes, urlUnescape s = percentDecode s
  | [] | [_] | [_, _] => rfl
  | c :: c1 :: c2 :: rest => by
    unfold urlUnescape percentDecode
    rw [escaped_eq]
    by_cases h : c = '%' ∧ isHex c1 = true ∧ isHex c2 = true
    · rw [if_pos h, if_pos h, urlUnescape_eq rest]
    · rw [if_neg h, if_neg h, urlUnescape_eq (c1 :: c2 :: rest)]

theorem str_base64 : str ";base64" = base64Mark := by decide

theorem str_default : str "text/plain;charset=US-ASCII" = Rfc2397.defaultType := by decide

theorem endsInBase64_eq {s : Bytes} (h : 7 ≤ s.length) : endsInBase64 s = .ok (decide (base64Mark <:+ s)) := by
  unfold endsInBase64
  rw [if_neg (by omega), str_base64]
  congr 1
  rw [Bool.eq_iff_iff, beq_iff_eq, decide_eq_true_iff, suffix_iff_eq_drop, eq_comm]
  rfl

theorem findIdx?_comma (h : 44 ∈ rest) : rest.findIdx? (· == (',' : UInt8)) = some (header rest).length := by
  induction rest with
  | nil => cases h
  | cons c rest ih =>
    unfold header
    rw [List.findIdx?_cons]
    by_cases hc : c = 44
    · subst hc
      rfl
    · have hmem := (mem_cons.mp h).resolve_left (Ne.symm hc)
      rw [if_neg (by simpa using hc), ih hmem, takeWhile_cons_of_pos (by simpa using hc)]
      rfl

theorem findIdx?_noComma (h : 44 ∉ rest) : rest.findIdx? (· == (',' : UInt8)) = none := by
  rw [List.findIdx?_eq_none_iff]
  intro c hc
  rw [beq_eq_false_iff_ne]
  rintro rfl
  exact h hc

theorem length_url (rest : Bytes) : (str "data:" ++ rest).length = rest.length + 5 := by
  rw [length_append, Nat.add_comm]
  rfl

theorem process_noComma (h : 44 ∉ rest) :
    process decode (str "data:" ++ rest) = .ok (.error (str "Malformed data: URL")) := by
  unfold process
  have hdrop : (str "data:" ++ rest).drop 5 = rest := rfl
  dsimp only
  rw [hdrop, findIdx?_noComma h]
  split <;> rfl

theorem process_comma (h : 44 ∈ rest) : process decode (str "data:" ++ rest) = (do
      let mimetype := if header rest = [] then Rfc2397.defaultType else header rest
      let base64 ← endsInBase64 mimetype
      let mimetype := if base64 then mimetype.take (mimetype.length - 7) else mimetype
      let data := percentDecode (rest.drop ((header rest).length + 1))
      if base64 then
        match decode data with
        | none => .ok (.error (str "Unable to Base64 decode data: URL"))
        | some data => .ok (.ok (mimetype, data))
      else .ok (.ok (mimetype, data))) := by
  have hlength : ¬(str "data:" ++ rest).length < 6 := by
    have := length_pos_of_mem h
    rw [length_url]
    omega
  have hdrop : (str "data:" ++ rest).drop 5 = rest := rfl
  have htake : rest.take (header rest).length = header rest := (prefix_iff_eq_take.mp (List.takeWhile_prefix _)).symm
  have hhead : (rest.head? = some (',' : UInt8)) ↔ header rest = [] := by
    cases rest with
    | nil => cases h
    | cons c rest =>
      unfold header
      by_cases hc : c = 44
      · subst hc
        exact iff_of_true rfl rfl
      · rw [takeWhile_cons_of_pos (by simpa using hc)]
        exact iff_of_false (fun h => hc (Option.some.inj h)) (cons_ne_nil _ _)
  unfold process
  rw [if_neg hlength]
  dsimp only
  rw [hdrop, findIdx?_comma h]
  dsimp only
  rw [htake, urlUnescape_eq, str_default]
  by_cases hempty : header rest = []
  · rw [if_pos hempty, if_pos (hhead.mpr hempty)] <;> rfl
  · rw [if_neg hempty, if_neg (mt hhead.mp hempty)] <;> rfl

theorem process_short (h : 44 ∈ rest) (hne : header rest ≠ []) (hlength : (header rest).length < 7) :
    process decode (str "data:" ++ rest) = .error .outOfBounds := by
  rw [process_comma h]
  dsimp only
  rw [if_neg hne]
  unfold endsInBase64
  rw [if_pos hlength]
  rfl

/-- The media type the fetcher takes from a header. -/
def takenType (header : Bytes) : Bytes := if header = [] then Rfc2397.defaultType else given header

theorem process_decoded (h : 44 ∈ rest) (hlength : header rest = [] ∨ 7 ≤ (header rest).length) :
    process decode (str "data:" ++ rest) = .ok (match body decode rest with
      | none => .error (str "Unable to Base64 decode data: URL")
      | some data => .ok (takenType (header rest), data)) := by
  rw [process_comma h]
  unfold body takenType
  dsimp only
  rcases hlength with hempty | hlength
  · have hends : endsInBase64 Rfc2397.defaultType = .ok false := by decide
    have hmark : ¬base64Mark <:+ [] := by decide
    rw [hempty, if_pos rfl, if_neg hmark, hends]
    rfl
  · have hne : header rest ≠ [] := by
      intro hnil
      rw [hnil] at hlength
      exact absurd hlength (by decide)
    rw [if_neg hne, if_neg hne, endsInBase64_eq hlength]
    unfold given
    by_cases hmark : base64Mark <:+ header rest
    · rw [if_pos hmark, if_pos hmark, decide_eq_true hmark]
      show (match decode _ with | none => _ | some data => _) = _
      cases decode (percentDecode (rest.drop ((header rest).length + 1))) <;> rfl
    · rw [if_neg hmark, if_neg hmark, decide_eq_false hmark]
      rfl

/-! ## What is claimed of it -/

/-- The URL is read within its bounds and gives its media type and data, or an error if it does not have them. -/
def Decodes (decode : Bytes → Option Bytes) (rest : Bytes) : Prop :=
  ∃ result, process decode (str "data:" ++ rest) = .ok result ∧
    match content decode rest with
    | some (mimetype, data) => result = .ok (mimetype, data)
    | none => ∃ text, result = .error text

theorem decodes_iff : Decodes decode rest ↔ 44 ∉ rest ∨ header rest = [] ∨
    7 ≤ (header rest).length ∧ (body decode rest = none ∨ header rest ≠ base64Mark) := by
  unfold Decodes content
  by_cases h : 44 ∈ rest
  · rw [if_pos h, or_iff_right (not_not.mpr h)]
    by_cases hempty : header rest = []
    · refine iff_of_true ?_ (.inl hempty)
      rw [process_decoded h (.inl hempty), hempty]
      cases body decode rest with
      | none => exact ⟨_, rfl, _, rfl⟩
      | some data => exact ⟨_, rfl, rfl⟩
    · rw [or_iff_right hempty]
      by_cases hlength : 7 ≤ (header rest).length
      · rw [and_iff_right hlength, process_decoded h (.inr hlength)]
        unfold takenType mediaType
        rw [if_neg hempty]
        cases body decode rest with
        | none => exact iff_of_true ⟨_, rfl, _, rfl⟩ (.inl rfl)
        | some data =>
          rw [or_iff_right nofun, Ne, ← Rfc2397.given_eq_nil_iff hlength]
          constructor
          · rintro ⟨result, hresult, heq⟩ hnil
            rw [hnil] at hresult heq
            cases hresult
            exact nomatch (Prod.mk.inj (Except.ok.inj heq)).1
          · intro hgiven
            rw [if_neg hgiven]
            exact ⟨_, rfl, rfl⟩
      · refine iff_of_false ?_ fun h => hlength h.1
        rintro ⟨result, hresult, -⟩
        rw [process_short h hempty (Nat.lt_of_not_le hlength)] at hresult
        cases hresult
  · refine iff_of_true ?_ (.inl h)
    rw [if_neg h, process_noComma h]
    exact ⟨_, rfl, _, rfl⟩

/-! ## Runs -/

/-- The messages that a callback got about a context. -/
def Fetcher.sentTo (f : Fetcher) (c : Nat) : List Msg := (f.sent.filter (·.1 == c)).map (·.2)

/-- The context a poll is at work on, and the messages that are left. -/
def Place.task : Place → Option (Nat × List Msg)
  | .loop => none
  | .sending c todo | .callback c todo => some (c, todo)

def Poll.current (p : Poll) : List Nat := (p.place.task.map (·.1)).toList

/-- The contexts that are to be freed. -/
def Fetcher.pending (f : Fetcher) : List Nat := f.ring ++ f.polls.flatMap Poll.current

/-- What is true in every reachable state. -/
structure Inv (decode : Bytes → Option Bytes) (f : Fetcher) : Prop where
  saved : ∀ p ∈ f.polls, p.saveRing = []
  nodup : f.pending.Nodup
  live : ∀ c, c ∈ f.pending ↔ ∃ x, f.ctxs[c]? = some x ∧ x.freed = false
  unlocked : ∀ c ∈ f.ring, ∀ x, f.ctxs[c]? = some x → x.locked = false
  quiet : ∀ c, c ∈ f.ring ∨ f.ctxs.length ≤ c → f.sentTo c = []
  current : ∀ p ∈ f.polls, ∀ c todo, p.place.task = some (c, todo) → ∀ x, f.ctxs[c]? = some x →
    ∃ result, process decode x.url = .ok result ∧
      f.sentTo c ++ todo.filter Msg.isSent = (messages result).filter Msg.isSent
  done : ∀ c x, f.ctxs[c]? = some x → x.freed = true → x.aborted = false →
    ∃ result, process decode x.url = .ok result ∧ f.sentTo c = (messages result).filter Msg.isSent

theorem ite_eq_some {γ : Type} {p : Prop} [Decidable p] {a b : γ} (h : (if p then some a else none) = some b) :
    p ∧ a = b := by
  split at h
  · next hp => exact ⟨hp, Option.some.inj h⟩
  · cases h

theorem modify_eq_some {g : Ctx → Ctx} {d : Nat} (h : (f.modify c g).ctxs[d]? = some x) :
    ∃ y, f.ctxs[d]? = some y ∧ x = if c = d then g y else y := by
  unfold Fetcher.modify at h
  rw [List.getElem?_modify, Option.map_eq_map, Option.map_eq_some_iff] at h
  obtain ⟨y, hy, rfl⟩ := h
  exact ⟨y, hy, rfl⟩

theorem modify_of_ne {g : Ctx → Ctx} {d : Nat} (h : c ≠ d) : (f.modify c g).ctxs[d]? = f.ctxs[d]? :=
  List.getElem?_modify_ne _ _ h

theorem length_modify (f : Fetcher) (c : Nat) (g : Ctx → Ctx) : (f.modify c g).ctxs.length = f.ctxs.length :=
  List.length_modify ..

theorem modify_self {g : Ctx → Ctx} (h : f.ctxs[c]? = some x) : (f.modify c g).ctxs[c]? = some (g x) := by
  unfold Fetcher.modify
  rw [List.getElem?_modify_eq, h]
  rfl

namespace Inv

theorem mem_pending_of_task (_ : Inv decode f) {p : Poll} {todo : List Msg} (hp : p ∈ f.polls)
    (htask : p.place.task = some (c, todo)) : c ∈ f.pending := by
  refine mem_append_right _ (mem_flatMap.mpr ⟨p, hp, ?_⟩)
  unfold Poll.current
  rw [htask]
  exact mem_singleton_self c

theorem modify (h : Inv decode f) {g : Ctx → Ctx} (hurl : ∀ y, (g y).url = y.url) (hfreed : ∀ y, (g y).freed = y.freed)
    (haborted : ∀ y, (g y).aborted = false → y.aborted = false)
    (hlocked : c ∈ f.ring → ∀ y, y.locked = false → (g y).locked = false) : Inv decode (f.modify c g) where
  saved := h.saved
  nodup := h.nodup
  live d := by
    rw [show (f.modify c g).pending = f.pending from rfl, h.live]
    by_cases hd : c = d
    · subst hd
      constructor
      · rintro ⟨x, hx, hfree⟩
        exact ⟨g x, modify_self hx, (hfreed x).trans hfree⟩
      · rintro ⟨x, hx, hfree⟩
        obtain ⟨y, hy, rfl⟩ := modify_eq_some hx
        rw [if_pos rfl, hfreed] at hfree
        exact ⟨y, hy, hfree⟩
    · rw [modify_of_ne hd]
  unlocked d hd x hx := by
    obtain ⟨y, hy, rfl⟩ := modify_eq_some hx
    have hlock := h.unlocked d hd y hy
    split
    · rename_i heq
      exact hlocked (heq ▸ hd) y hlock
    · exact hlock
  quiet d hd := h.quiet d (by rwa [length_modify] at hd)
  current p hp d todo htask x hx := by
    obtain ⟨y, hy, rfl⟩ := modify_eq_some hx
    have hcur := h.current p hp d todo htask y hy
    split
    · rw [hurl]
      exact hcur
    · exact hcur
  done d x hx hfree habort := by
    obtain ⟨y, hy, rfl⟩ := modify_eq_some hx
    by_cases hd : c = d
    · rw [if_pos hd] at hfree habort ⊢
      rw [hurl]
      exact h.done d y hy ((hfreed y).symm.trans hfree) (haborted y habort)
    · rw [if_neg hd] at hfree habort ⊢
      exact h.done d y hy hfree habort

theorem replace (h : Inv decode f) {p p' : Poll} {polls : List Poll} (hpolls : f.polls = p :: polls)
    (hsaved : p'.saveRing = []) (hcurrent : p'.current = p.current)
    (htask : ∀ c todo, p'.place.task = some (c, todo) → ∀ x, f.ctxs[c]? = some x →
      ∃ result, process decode x.url = .ok result ∧
        f.sentTo c ++ todo.filter Msg.isSent = (messages result).filter Msg.isSent) :
    Inv decode { f with polls := p' :: polls } := by
  have hpending : Fetcher.pending { f with polls := p' :: polls } = f.pending := by
    unfold Fetcher.pending
    rw [hpolls, flatMap_cons, flatMap_cons, hcurrent]
  refine ⟨?_, hpending ▸ h.nodup, fun c => ?_, h.unlocked, h.quiet, ?_, h.done⟩
  · intro q hq
    rcases mem_cons.mp hq with rfl | hq
    · exact hsaved
    · exact h.saved q (by rw [hpolls]; exact mem_cons_of_mem _ hq)
  · rw [hpending]
    exact h.live c
  · intro q hq
    rcases mem_cons.mp hq with rfl | hq
    · exact htask
    · exact h.current q (by rw [hpolls]; exact mem_cons_of_mem _ hq)

theorem callback (h : Inv decode f) {msg : Msg} {todo : List Msg} {polls : List Poll}
    {result : Except Bytes (Bytes × Bytes)} (hpolls : f.polls = ⟨.sending c (msg :: todo), []⟩ :: polls)
    (hx : f.ctxs[c]? = some x) (hprocess : process decode x.url = .ok result)
    (hleft : f.sentTo c ++ msg :: todo.filter Msg.isSent = (messages result).filter Msg.isSent) :
    Inv decode (Fetcher.modify { f with polls := ⟨.callback c todo, []⟩ :: polls, sent := f.sent ++ [(c, msg)] } c
      fun x => { x with locked := true }) := by
  have htop : ⟨.sending c (msg :: todo), []⟩ ∈ f.polls := by
    rw [hpolls]
    exact mem_cons_self
  have hother : ∀ d, c ≠ d →
      Fetcher.sentTo { f with polls := ⟨.callback c todo, []⟩ :: polls, sent := f.sent ++ [(c, msg)] } d =
        f.sentTo d := by
    intro d hd
    unfold Fetcher.sentTo
    rw [filter_append, filter_cons_of_neg (by simpa using hd), filter_nil, append_nil]
  have hnodup : (f.ring ++ c :: polls.flatMap Poll.current).Nodup := by
    have := h.nodup
    unfold Fetcher.pending at this
    rwa [hpolls] at this
  obtain ⟨hc, -⟩ := nodup_cons.mp (perm_middle.nodup_iff.mp hnodup)
  have hsent : Inv decode { f with polls := ⟨.callback c todo, []⟩ :: polls, sent := f.sent ++ [(c, msg)] } := by
    have hpending : Fetcher.pending { f with polls := ⟨.callback c todo, []⟩ :: polls, sent := f.sent ++ [(c, msg)] } =
        f.pending := by
      unfold Fetcher.pending
      rw [hpolls]
      rfl
    refine ⟨?_, hpending ▸ h.nodup, fun d => hpending ▸ h.live d, h.unlocked, fun d hd => ?_, ?_, ?_⟩
    · intro p hp
      rcases mem_cons.mp hp with rfl | hp
      · rfl
      · exact h.saved p (by rw [hpolls]; exact mem_cons_of_mem _ hp)
    · rw [hother d]
      · exact h.quiet d hd
      · rintro rfl
        rcases hd with hd | hd
        · exact hc (mem_append_left _ hd)
        · exact absurd (List.getElem?_eq_some_iff.mp hx).1 (Nat.not_lt_of_le hd)
    · intro p hp d todo' htask y hy
      rcases mem_cons.mp hp with rfl | hp
      · cases htask
        obtain rfl := Option.some.inj (hx.symm.trans hy)
        refine ⟨result, hprocess, ?_⟩
        rw [← hleft]
        unfold Fetcher.sentTo
        rw [filter_append, filter_cons_of_pos (by simp), map_append, append_assoc]
        rfl
      · rw [hother d]
        · exact h.current p (by rw [hpolls]; exact mem_cons_of_mem _ hp) d todo' htask y hy
        · rintro rfl
          refine hc (mem_append_right _ (mem_flatMap.mpr ⟨p, hp, ?_⟩))
          unfold Poll.current
          rw [htask]
          exact mem_singleton_self c
    · intro d y hy hfreed habort
      rw [hother d]
      · exact h.done d y hy hfreed habort
      · rintro rfl
        obtain ⟨z, hz, hlive⟩ := (h.live c).mp (h.mem_pending_of_task htop rfl)
        obtain rfl := Option.some.inj (hz.symm.trans hy)
        rw [hfreed] at hlive
        cases hlive
  exact hsent.modify (fun _ => rfl) (fun _ => rfl) (fun _ => id) fun hmem => absurd (mem_append_left _ hmem) hc

theorem finish (h : Inv decode f) {p : Poll} {polls : List Poll} {ring : List Nat} (hpolls : f.polls = p :: polls)
    (hring : ring ⊆ f.ring) (hperm : (f.ring ++ p.current).Perm (c :: ring))
    (hdone : ∀ x, f.ctxs[c]? = some x → x.aborted = false →
      ∃ result, process decode x.url = .ok result ∧ f.sentTo c = (messages result).filter Msg.isSent) :
    Inv decode (Fetcher.free { f with ring, polls := ⟨.loop, []⟩ :: polls } c) := by
  have hpending : f.pending.Perm (c :: (ring ++ polls.flatMap Poll.current)) := by
    unfold Fetcher.pending
    rw [hpolls, flatMap_cons, ← append_assoc, ← cons_append]
    exact hperm.append_right _
  obtain ⟨hc, hnodup⟩ := nodup_cons.mp (hpending.nodup_iff.mp h.nodup)
  have hmem : ∀ d ∈ ring ++ polls.flatMap Poll.current, c ≠ d := fun d hd heq => hc (heq ▸ hd)
  refine ⟨?_, hnodup, fun d => ?_, ?_, ?_, ?_, ?_⟩
  · intro q hq
    rcases mem_cons.mp hq with rfl | hq
    · rfl
    · exact h.saved q (by rw [hpolls]; exact mem_cons_of_mem _ hq)
  · show d ∈ ring ++ polls.flatMap Poll.current ↔ _
    by_cases hd : c = d
    · subst hd
      refine iff_of_false hc ?_
      rintro ⟨x, hx, hfree⟩
      obtain ⟨y, -, rfl⟩ := modify_eq_some hx
      rw [if_pos rfl] at hfree
      cases hfree
    · unfold Fetcher.free
      rw [modify_of_ne hd, ← h.live, hpending.mem_iff, mem_cons]
      exact (or_iff_right (Ne.symm hd)).symm
  · intro d hd x hx
    unfold Fetcher.free at hx
    rw [modify_of_ne (hmem d (mem_append_left _ hd))] at hx
    exact h.unlocked d (hring hd) x hx
  · intro d hd
    unfold Fetcher.free at hd
    rw [length_modify] at hd
    exact h.quiet d (hd.imp_left fun hd => hring hd)
  · intro q hq d todo htask x hx
    rcases mem_cons.mp hq with rfl | hq
    · cases htask
    · have hcur : d ∈ polls.flatMap Poll.current := by
        refine mem_flatMap.mpr ⟨q, hq, ?_⟩
        unfold Poll.current
        rw [htask]
        exact mem_singleton_self d
      unfold Fetcher.free at hx
      rw [modify_of_ne (hmem d (mem_append_right _ hcur))] at hx
      exact h.current q (by rw [hpolls]; exact mem_cons_of_mem _ hq) d todo htask x hx
  · intro d x hx hfree habort
    obtain ⟨y, hy, rfl⟩ := modify_eq_some hx
    by_cases hd : c = d
    · subst hd
      rw [if_pos rfl] at habort ⊢
      exact hdone y hy habort
    · rw [if_neg hd] at hfree habort ⊢
      exact h.done d y hy hfree habort

theorem lt_length (h : Inv decode f) (hc : c ∈ f.pending) : c < f.ctxs.length := by
  obtain ⟨x, hx, -⟩ := (h.live c).mp hc
  exact (List.getElem?_eq_some_iff.mp hx).1

theorem start (h : Inv decode f) {polls : List Poll} {ring : List Nat} {result : Except Bytes (Bytes × Bytes)}
    (hpolls : f.polls = ⟨.loop, []⟩ :: polls) (hring : f.ring = c :: ring) (hx : f.ctxs[c]? = some x)
    (hprocess : process decode x.url = .ok result) :
    Inv decode { f with ring, polls := ⟨.sending c (messages result), []⟩ :: polls } := by
  have hpending : (Fetcher.pending { f with ring, polls := ⟨.sending c (messages result), []⟩ :: polls }).Perm
      f.pending := by
    unfold Fetcher.pending
    rw [hpolls, hring]
    exact perm_middle
  have hsub : ring ⊆ f.ring := by
    rw [hring]
    exact subset_cons_self c ring
  refine ⟨?_, hpending.nodup_iff.mpr h.nodup, fun d => hpending.mem_iff.trans (h.live d),
    fun d hd => h.unlocked d (hsub hd), fun d hd => h.quiet d (hd.imp_left fun hd => hsub hd), ?_, h.done⟩
  · intro p hp
    rcases mem_cons.mp hp with rfl | hp
    · rfl
    · exact h.saved p (by rw [hpolls]; exact mem_cons_of_mem _ hp)
  · intro p hp d todo htask y hy
    rcases mem_cons.mp hp with rfl | hp
    · cases htask
      obtain rfl := Option.some.inj (hx.symm.trans hy)
      refine ⟨result, hprocess, ?_⟩
      have hquiet : f.sentTo c = [] := h.quiet c (.inl (by rw [hring]; exact mem_cons_self))
      show f.sentTo c ++ _ = _
      rw [hquiet, nil_append]
    · exact h.current p (by rw [hpolls]; exact mem_cons_of_mem _ hp) d todo htask y hy

theorem setup (h : Inv decode f) (url : Bytes) : Inv decode (f.setup url) := by
  have hpending : (f.setup url).pending.Perm (f.ctxs.length :: f.pending) := by
    show (f.ring ++ [f.ctxs.length] ++ f.polls.flatMap Poll.current).Perm _
    rw [append_assoc]
    exact perm_middle
  have hnew : f.ctxs.length ∉ f.pending := fun hmem => Nat.lt_irrefl _ (h.lt_length hmem)
  have hold : ∀ {d y}, (f.setup url).ctxs[d]? = some y →
      f.ctxs[d]? = some y ∨ d = f.ctxs.length ∧ y = ⟨url, false, false, false⟩ := by
    intro d y hy
    unfold Fetcher.setup at hy
    rw [List.getElem?_append] at hy
    split at hy
    · exact .inl hy
    · rename_i hlt
      obtain ⟨hd, hy⟩ := List.getElem?_eq_some_iff.mp hy
      rw [length_singleton] at hd
      refine .inr ⟨by omega, ?_⟩
      rw [← hy]
      exact mem_singleton.mp (getElem_mem hd)
  have hlt : ∀ {d y}, f.ctxs[d]? = some y → d ≠ f.ctxs.length := by
    rintro d y hy rfl
    rw [List.getElem?_eq_none (Nat.le_refl _)] at hy
    cases hy
  refine ⟨h.saved, hpending.nodup_iff.mpr (nodup_cons.mpr ⟨hnew, h.nodup⟩), fun d => ?_, ?_, ?_, ?_, ?_⟩
  · rw [hpending.mem_iff, mem_cons, h.live]
    constructor
    · rintro (rfl | ⟨y, hy, hfree⟩)
      · exact ⟨_, List.getElem?_concat_length .., rfl⟩
      · exact ⟨y, (List.getElem?_append_left (List.getElem?_eq_some_iff.mp hy).1).trans hy, hfree⟩
    · rintro ⟨y, hy, hfree⟩
      rcases hold hy with hy | ⟨rfl, -⟩
      · exact .inr ⟨y, hy, hfree⟩
      · exact .inl rfl
  · intro d hd y hy
    rcases hold hy with hy | ⟨rfl, rfl⟩
    · rcases mem_append.mp hd with hd | hd
      · exact h.unlocked d hd y hy
      · exact absurd (mem_singleton.mp hd) (hlt hy)
    · rfl
  · intro d hd
    apply h.quiet
    rcases hd with hd | hd
    · rcases mem_append.mp hd with hd | hd
      · exact .inl hd
      · exact .inr (mem_singleton.mp hd).ge
    · unfold Fetcher.setup at hd
      rw [length_append] at hd
      exact .inr (by omega)
  · intro p hp d todo htask y hy
    rcases hold hy with hy | ⟨rfl, -⟩
    · exact h.current p hp d todo htask y hy
    · exact absurd (h.mem_pending_of_task hp htask) hnew
  · intro d y hy hfree habort
    rcases hold hy with hy | ⟨-, rfl⟩
    · exact h.done d y hy hfree habort
    · cases hfree

theorem poll (h : Inv decode f) : Inv decode { f with polls := ⟨.loop, []⟩ :: f.polls } := by
  refine ⟨?_, h.nodup, h.live, h.unlocked, h.quiet, ?_, h.done⟩
  · intro q hq
    rcases mem_cons.mp hq with rfl | hq
    · rfl
    · exact h.saved q hq
  · intro q hq
    rcases mem_cons.mp hq with rfl | hq
    · nofun
    · exact h.current q hq

theorem takeFirst (h : Inv decode f) {saveRing : List Nat} {polls : List Poll}
    (hpolls : f.polls = ⟨.loop, saveRing⟩ :: polls) : Inv decode (f.takeFirst decode saveRing polls) := by
  obtain rfl : saveRing = [] := h.saved ⟨.loop, saveRing⟩ (by rw [hpolls]; exact mem_cons_self)
  unfold Fetcher.takeFirst
  cases hring : f.ring with
  | nil =>
    have hpending : Fetcher.pending { f with ring := [], polls } = f.pending := by
      unfold Fetcher.pending
      rw [hpolls, hring]
      rfl
    refine ⟨fun p hp => h.saved p ?_, hpending ▸ h.nodup, fun c => ?_, nofun, fun c hc => h.quiet c ?_,
      fun p hp => h.current p ?_, h.done⟩
    · rw [hpolls]
      exact mem_cons_of_mem _ hp
    · rw [hpending]
      exact h.live c
    · exact .inr (hc.resolve_left nofun)
    · rw [hpolls]
      exact mem_cons_of_mem _ hp
  | cons c ring =>
    have hc : c ∈ f.ring := by
      rw [hring]
      exact mem_cons_self
    obtain ⟨x, hx, hfree⟩ := (h.live c).mp (mem_append_left _ hc)
    dsimp only
    rw [hx]
    dsimp only
    rw [h.unlocked c hc x hx, if_neg Bool.false_ne_true]
    split
    · rename_i habort
      refine h.finish hpolls ?_ ?_ fun y hy hy' => ?_
      · rw [hring]
        exact subset_cons_self c ring
      · rw [hring]
        exact .of_eq (append_nil _)
      · obtain rfl := Option.some.inj (hx.symm.trans hy)
        rw [habort] at hy'
        cases hy'
    · cases hprocess : process decode x.url with
      | error trap =>
        rw [← hring]
        exact ⟨h.saved, h.nodup, h.live, h.unlocked, h.quiet, h.current, h.done⟩
      | ok result =>
        show Inv decode { f with ring, polls := ⟨.sending c (messages result), []⟩ :: polls }
        exact h.start hpolls hring hx hprocess

theorem send (h : Inv decode f) {todo : List Msg} {saveRing : List Nat} {polls : List Poll}
    (hpolls : f.polls = ⟨.sending c todo, saveRing⟩ :: polls) : Inv decode (f.send c todo saveRing polls) := by
  have htop : ⟨.sending c todo, saveRing⟩ ∈ f.polls := by
    rw [hpolls]
    exact mem_cons_self
  obtain rfl : saveRing = [] := h.saved _ htop
  obtain ⟨x, hx, hfree⟩ := (h.live c).mp (h.mem_pending_of_task htop rfl)
  obtain ⟨result, hprocess, hleft⟩ := h.current _ htop c todo rfl x hx
  unfold Fetcher.send
  cases todo with
  | nil =>
    refine h.finish hpolls (List.Subset.refl _) (perm_append_singleton c f.ring) fun y hy _ => ?_
    obtain rfl := Option.some.inj (hx.symm.trans hy)
    rw [filter_nil, append_nil] at hleft
    exact ⟨result, hprocess, hleft⟩
  | cons msg todo =>
    dsimp only
    rw [hx, Option.map_some, Option.getD_some]
    by_cases habort : x.aborted = true
    · rw [if_pos habort]
      refine h.finish hpolls (List.Subset.refl _) (perm_append_singleton c f.ring) fun y hy hy' => ?_
      obtain rfl := Option.some.inj (hx.symm.trans hy)
      rw [habort] at hy'
      cases hy'
    · rw [if_neg habort]
      by_cases hsent : msg.isSent = true
      · rw [if_pos hsent]
        rw [filter_cons_of_pos hsent] at hleft
        exact h.callback hpolls hx hprocess hleft
      · rw [if_neg hsent]
        rw [filter_cons_of_neg hsent] at hleft
        refine h.replace hpolls rfl rfl fun d todo' htask y hy => ?_
        cases htask
        obtain rfl := Option.some.inj (hx.symm.trans hy)
        exact ⟨result, hprocess, hleft⟩

theorem turn (h : Inv decode f) (hf : f.turn decode = some f') : Inv decode f' := by
  unfold Fetcher.turn at hf
  split at hf
  · cases hf
  · next hpolls =>
    cases hf
    exact h.takeFirst hpolls
  · next hpolls =>
    cases hf
    exact h.send hpolls
  · next c todo saveRing polls hpolls =>
    cases hf
    have htop : ⟨.callback c todo, saveRing⟩ ∈ f.polls := by
      rw [hpolls]
      exact mem_cons_self
    have hback : Inv decode { f with polls := ⟨.sending c todo, saveRing⟩ :: polls } :=
      h.replace hpolls (h.saved ⟨.callback c todo, saveRing⟩ htop) rfl (h.current ⟨.callback c todo, saveRing⟩ htop)
    exact hback.modify (fun _ => rfl) (fun _ => rfl) (fun _ => id) fun _ _ _ => rfl

theorem step (h : Inv decode f) {op : Op} (hf : f.step decode op = some f') : Inv decode f' := by
  unfold Fetcher.step at hf
  split at hf
  · cases hf
  · cases op with
    | setup url =>
      obtain ⟨-, hf⟩ := ite_eq_some hf
      exact hf ▸ h.setup url
    | abort c =>
      obtain ⟨-, hf⟩ := ite_eq_some hf
      exact hf ▸ h.modify (fun _ => rfl) (fun _ => rfl) nofun fun _ _ hy => hy
    | poll =>
      obtain ⟨-, hf⟩ := ite_eq_some hf
      exact hf ▸ h.poll
    | turn => exact h.turn hf

end Inv

theorem inv_of_run {ops : List Op} (hr : (fetcher decode).AnyRun ops f) : Inv decode f := by
  refine hr.invariant ?_ fun op f f' _ hstep h => h.step hstep
  rintro _ rfl
  refine ⟨nofun, nodup_nil, fun c => ?_, nofun, fun _ _ => rfl, nofun, nofun⟩
  refine iff_of_false not_mem_nil ?_
  rintro ⟨x, hx, -⟩
  cases hx

/-! ## Deliveries -/

/-- What the callback is to get about a URL: the media type, the length, that it may be kept for a year, the data and
that the fetch is finished, or one error. -/
def Response (decode : Bytes → Option Bytes) (rest : Bytes) (msgs : List Msg) : Prop :=
  match content decode rest with
  | some (mimetype, data) =>
    msgs = [.header (str "Content-Type: " ++ mimetype), .header (str "Content-Length: " ++ formatNat data.length),
      .header (str "Cache-Control: max-age=31536000"), .data data, .finished]
  | none => ∃ text, msgs = [.error text]

/-- In every run, a fetch that is not aborted gets the messages of its response, in their order and no others, has
got all of them when it is freed, and is freed when there is no poll and the ring is empty. -/
def Delivers (decode : Bytes → Option Bytes) (rest : Bytes) : Prop :=
  ∀ ops f, (fetcher decode).AnyRun ops f → ∀ c x, f.ctxs[c]? = some x → x.url = str "data:" ++ rest →
    x.aborted = false →
    ∃ msgs, Response decode rest msgs ∧ f.sentTo c <+: msgs ∧ (x.freed = true → f.sentTo c = msgs) ∧
      (f.polls = [] → f.ring = [] → x.freed = true)

theorem sentTo_prefix {ops : List Op} {result : Except Bytes (Bytes × Bytes)} (hr : (fetcher decode).AnyRun ops f)
    (hx : f.ctxs[c]? = some x) (habort : x.aborted = false) (hprocess : process decode x.url = .ok result) :
    f.sentTo c <+: (messages result).filter Msg.isSent ∧
      (x.freed = true → f.sentTo c = (messages result).filter Msg.isSent) ∧
      (f.polls = [] → f.ring = [] → x.freed = true) := by
  have h := inv_of_run hr
  have hdone : x.freed = true → f.sentTo c = (messages result).filter Msg.isSent := by
    intro hfree
    obtain ⟨result', hprocess', hsent⟩ := h.done c x hx hfree habort
    obtain rfl := Except.ok.inj (hprocess.symm.trans hprocess')
    exact hsent
  refine ⟨?_, hdone, fun hpolls hring => ?_⟩
  · cases hfree : x.freed with
    | true => exact (hdone hfree) ▸ prefix_refl _
    | false =>
      rcases mem_append.mp ((h.live c).mpr ⟨x, hx, hfree⟩) with hmem | hmem
      · rw [h.quiet c (.inl hmem)]
        exact nil_prefix
      · obtain ⟨p, hp, hcur⟩ := mem_flatMap.mp hmem
        unfold Poll.current at hcur
        cases htask : p.place.task with
        | none =>
          rw [htask] at hcur
          cases hcur
        | some task =>
          rw [htask] at hcur
          obtain rfl := mem_singleton.mp hcur
          obtain ⟨result', hprocess', hsent⟩ := h.current p hp _ _ htask x hx
          obtain rfl := Except.ok.inj (hprocess.symm.trans hprocess')
          exact ⟨_, hsent⟩
  · by_contra hfree
    have hmem := (h.live c).mpr ⟨x, hx, Bool.eq_false_of_not_eq_true hfree⟩
    unfold Fetcher.pending at hmem
    rw [hpolls, hring] at hmem
    cases hmem

theorem exists_run_freed {saveRing : List Nat} : ∀ {todo : List Msg} {ops : List Op} {f : Fetcher} {x : Ctx},
    (fetcher decode).AnyRun ops f → f.trapped = false → f.polls = [⟨.sending c todo, saveRing⟩] →
    f.ctxs[c]? = some x → x.aborted = false →
    ∃ ops' f' x', (fetcher decode).AnyRun ops' f' ∧ f'.ctxs[c]? = some x' ∧ x'.url = x.url ∧ x'.aborted = false ∧
      x'.freed = true
  | [], ops, f, x, hr, htrap, hpolls, hx, habort => by
    refine ⟨_, _, { x with freed := true }, hr.step .turn trivial (?_ : f.step decode .turn =
      some (f.send c [] saveRing [])), ?_, rfl, habort, rfl⟩
    · unfold Fetcher.step Fetcher.turn
      rw [htrap, hpolls]
      rfl
    · exact modify_self hx
  | msg :: todo, ops, f, x, hr, htrap, hpolls, hx, habort => by
    have hturn : f.step decode .turn = some (f.send c (msg :: todo) saveRing []) := by
      unfold Fetcher.step Fetcher.turn
      rw [htrap, hpolls]
      rfl
    have hrun := hr.step .turn trivial hturn
    unfold Fetcher.send at hrun
    dsimp only at hrun
    rw [hx, Option.map_some, Option.getD_some, if_neg (by rw [habort]; exact Bool.false_ne_true)] at hrun
    split at hrun
    · -- the callback returns without having done anything
      have hback := hrun.step .turn trivial (?_ : _ = some (Fetcher.modify { (Fetcher.modify
        { f with polls := ⟨.callback c todo, saveRing⟩ :: [], sent := f.sent ++ [(c, msg)] } c
          fun x => { x with locked := true }) with polls := [⟨.sending c todo, saveRing⟩] } c
          fun x => { x with locked := false }))
      · refine exists_run_freed (x := { x with locked := false }) hback htrap rfl ?_ habort
        show ((f.ctxs.modify c _).modify c _)[c]? = _
        rw [List.getElem?_modify_eq, List.getElem?_modify_eq, hx]
        rfl
      · show Fetcher.step decode _ _ = _
        unfold Fetcher.step Fetcher.turn
        rw [if_neg (by rw [show Fetcher.trapped _ = f.trapped from rfl, htrap]; exact Bool.false_ne_true)]
        rfl
    · exact exists_run_freed hrun htrap rfl hx habort

theorem exists_run_of_process {url : Bytes} {result : Except Bytes (Bytes × Bytes)}
    (hprocess : process decode url = .ok result) :
    ∃ ops f x, (fetcher decode).AnyRun ops f ∧ f.ctxs[0]? = some x ∧ x.url = url ∧ x.aborted = false ∧
      x.freed = true := by
  have hstart : (fetcher decode).AnyRun [] ⟨[], [], [], [], false⟩ := .start rfl
  have hsetup : (fetcher decode).AnyRun _ ⟨[⟨url, false, false, false⟩], [0], [], [], false⟩ :=
    hstart.step (.setup url) trivial rfl
  have hpoll : (fetcher decode).AnyRun _ ⟨[⟨url, false, false, false⟩], [0], [⟨.loop, []⟩], [], false⟩ :=
    hsetup.step .poll trivial rfl
  have htake : (fetcher decode).AnyRun ([] ++ [.setup url] ++ [.poll] ++ [.turn])
      ⟨[⟨url, false, false, false⟩], [], [⟨.sending 0 (messages result), []⟩], [], false⟩ := by
    refine hpoll.step .turn trivial ?_
    show some (Fetcher.takeFirst decode _ _ _) = _
    unfold Fetcher.takeFirst
    dsimp only [List.getElem?_cons_zero]
    rw [if_neg Bool.false_ne_true, if_neg Bool.false_ne_true, hprocess]
  exact exists_run_freed htake rfl rfl rfl rfl

theorem filter_messages_ok {mimetype data : Bytes} (hdata : data.length < 2 ^ 64) :
    (messages (.ok (mimetype, data))).filter Msg.isSent = messages (.ok (mimetype, data)) ↔ mimetype.length < 50 := by
  have htype : Msg.isSent (.header (str "Content-Type: " ++ mimetype)) = true ↔ mimetype.length < 50 := by
    unfold Msg.isSent
    rw [decide_eq_true_iff, length_append]
    show 14 + mimetype.length < 64 ↔ _
    omega
  have hlength : Msg.isSent (.header (str "Content-Length: " ++ formatNat data.length)) = true := by
    unfold Msg.isSent
    rw [decide_eq_true_iff, length_append]
    show 16 + (formatNat data.length).length < 64
    have := (length_formatNat_le_iff (k := 20) (by decide)).mpr (Nat.lt_trans hdata (by decide))
    omega
  rw [filter_eq_self]
  unfold messages
  constructor
  · exact fun h => htype.mp (h _ mem_cons_self)
  · intro h
    simp only [forall_mem_cons]
    exact ⟨htype.mpr h, hlength, by decide, rfl, rfl, nofun⟩

theorem response_error {text : Bytes} (h : content decode rest = none) :
    Response decode rest (messages (.error text)) := by
  unfold Response
  rw [h]
  exact ⟨text, rfl⟩

theorem response_ok {mimetype data : Bytes} (h : content decode rest = some (mimetype, data)) :
    Response decode rest (messages (.ok (mimetype, data))) := by
  unfold Response
  rw [h]
  rfl

theorem delivers_of_process {result : Except Bytes (Bytes × Bytes)}
    (hprocess : process decode (str "data:" ++ rest) = .ok result) (hresponse : Response decode rest (messages result))
    (hsent : (messages result).filter Msg.isSent = messages result) : Delivers decode rest := by
  intro ops f hr c x hx hurl habort
  have h := sentTo_prefix hr hx habort (hurl ▸ hprocess)
  rw [hsent] at h
  exact ⟨_, hresponse, h⟩

theorem delivers_iff_length {mimetype data : Bytes}
    (hprocess : process decode (str "data:" ++ rest) = .ok (.ok (mimetype, data)))
    (hcontent : content decode rest = some (mimetype, data)) (hdata : data.length < 2 ^ 64) :
    Delivers decode rest ↔ mimetype.length < 50 := by
  rw [← filter_messages_ok hdata]
  constructor
  · intro hdelivers
    obtain ⟨ops, f, x, hr, hx, hurl, habort, hfree⟩ := exists_run_of_process hprocess
    obtain ⟨msgs, hresponse, -, hsent, -⟩ := hdelivers ops f hr 0 x hx hurl habort
    unfold Response at hresponse
    rw [hcontent] at hresponse
    have hall := ( sentTo_prefix hr hx habort (hurl ▸ hprocess)).2.1 hfree
    rw [hsent hfree, hresponse] at hall
    exact hall.symm
  · exact delivers_of_process hprocess (response_ok hcontent)

/-- For every URL of less than `2 ^ 64` bytes with the data scheme, and for every decoder that gives no more bytes
than it gets: the URL is decoded within its bounds and delivered as RFC 2397 says exactly if it has no comma, or
nothing in front of it, or in front of it are at least seven bytes that are either not only `;base64` and without it
less than fifty, or in front of data that are not Base64. -/
theorem decodes_delivers_iff (decode : Bytes → Option Bytes) (rest : Bytes) (hrest : rest.length < 2 ^ 64)
    (hdecode : ∀ s data, decode s = some data → data.length ≤ s.length) :
    Decodes decode rest ∧ Delivers decode rest ↔ 44 ∉ rest ∨ header rest = [] ∨ 7 ≤ (header rest).length ∧
      (body decode rest = none ∨ header rest ≠ base64Mark ∧ (given (header rest)).length < 50) := by
  by_cases hcomma : 44 ∈ rest
  · have hcontent : content decode rest = (body decode rest).map fun data => (mediaType (header rest), data) :=
      if_pos hcomma
    by_cases hlength : header rest = [] ∨ 7 ≤ (header rest).length
    · have hprocess := @process_decoded decode rest hcomma hlength
      cases hbody : body decode rest with
      | none =>
        rw [hbody] at hprocess hcontent
        have hdecodes : Decodes decode rest := decodes_iff.mpr (.inr (hlength.imp_right fun h => ⟨h, .inl hbody⟩))
        exact iff_of_true ⟨hdecodes, delivers_of_process hprocess (response_error hcontent) rfl⟩
          (.inr (hlength.imp_right fun h => ⟨h, .inl rfl⟩))
      | some data =>
        have hdata : data.length < 2 ^ 64 := Nat.lt_of_le_of_lt (Rfc2397.length_body_le hdecode hbody) hrest
        rw [hbody] at hprocess hcontent
        by_cases hempty : header rest = []
        · rw [hempty] at hprocess hcontent
          refine iff_of_true ⟨decodes_iff.mpr (.inr (.inl hempty)), ?_⟩ (.inr (.inl hempty))
          exact (delivers_iff_length hprocess hcontent hdata).mpr (by decide)
        · have hseven := hlength.resolve_left hempty
          by_cases hmark : header rest = base64Mark
          · refine iff_of_false (fun h => ?_) (fun h => ?_)
            · obtain hno | hno | ⟨-, hno | hno⟩ := decodes_iff.mp h.1
              · exact hno hcomma
              · exact hempty hno
              · rw [hbody] at hno
                cases hno
              · exact hno hmark
            · obtain hno | hno | ⟨-, hno | hno⟩ := h
              · exact hno hcomma
              · exact hempty hno
              · cases hno
              · exact hno.1 hmark
          · have hdecodes : Decodes decode rest := decodes_iff.mpr (.inr (.inr ⟨hseven, .inr hmark⟩))
            have hgiven : given (header rest) ≠ [] := mt (Rfc2397.given_eq_nil_iff hseven).mp hmark
            have htype : mediaType (header rest) = given (header rest) := if_neg hgiven
            have htaken : takenType (header rest) = given (header rest) := if_neg hempty
            rw [htaken] at hprocess
            rw [htype] at hcontent
            rw [and_iff_right hdecodes, delivers_iff_length hprocess hcontent hdata, or_iff_right (not_not.mpr hcomma),
              or_iff_right hempty, and_iff_right hseven, or_iff_right nofun, and_iff_right hmark]
    · rw [not_or] at hlength
      refine iff_of_false (fun h => ?_) fun h => ?_
      · obtain hno | hno | ⟨hno, -⟩ := decodes_iff.mp h.1
        · exact hno hcomma
        · exact hlength.1 hno
        · exact hlength.2 hno
      · obtain hno | hno | ⟨hno, -⟩ := h
        · exact hno hcomma
        · exact hlength.1 hno
        · exact hlength.2 hno
  · refine iff_of_true ⟨decodes_iff.mpr (.inl hcomma), ?_⟩ (.inl hcomma)
    exact delivers_of_process (process_noComma hcomma) (response_error (if_neg hcomma)) rfl

/-- `data:text/plain;base64,SGk=`, with a decoder for what stands in it. -/
theorem decodes_delivers_iff_base64 :
    Decodes (fun s => if s = str "SGk=" then some (str "Hi") else none) (str "text/plain;base64,SGk=") ∧
      Delivers (fun s => if s = str "SGk=" then some (str "Hi") else none) (str "text/plain;base64,SGk=") := by
  refine (decodes_delivers_iff _ _ (by decide) fun s data h => ?_).mpr
    (.inr (.inr ⟨by decide, .inr ⟨by decide, by decide⟩⟩))
  split at h
  · next heq =>
    rw [heq, ← Option.some.inj h]
    decide
  · cases h

/-- The media type of `data:a/b,x` is shorter than `;base64`, which is compared with what stands in front of it. -/
theorem not_decodes : ¬∀ decode rest, rest.length < 2 ^ 64 →
    (∀ s data, decode s = some data → data.length ≤ s.length) → Decodes decode rest ∧ Delivers decode rest := by
  intro h
  obtain hno | hno | ⟨hno, -⟩ :=
    decodes_iff.mp (h (fun _ => none) (str "a/b,x") (by decide) fun _ _ h => nomatch h).1
  · exact hno (by decide)
  · exact absurd hno (by decide)
  · exact absurd hno (by decide)

end Nami.Fetch.Data
