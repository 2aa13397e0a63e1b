import Mathlib.Data.List.Perm.Basic
import Nami.Hlcache.Basic

/-!
# Who has a handle of the low-level cache

Each handle is with a retrieval context, with a content or with the download client, or it was released. The
sum of these is one for each handle, and a migration keeps it unless a content gets no user or a download
reaches nobody.
-/

namespace Nami.Hlcache

open List

variable {τ : Type*} {handlers : Handlers τ} {s s' : Cache}

namespace Cache

/-- How many contents have the handle. -/
def owners (s : Cache) (l : Nat) : Nat := s.contentList.countP fun entry => decide (entry.content.llcache = l)

/-- How many retrieval contexts have the handle. -/
def waiting (s : Cache) (l : Nat) : Nat := s.ring.countP fun ctx => decide (ctx.llcache = l)

/-- Who has the handle, and how often it was released. -/
def tally (s : Cache) (l : Nat) : Nat := s.waiting l + s.owners l + s.downloads.count l + s.released l

/-- Each handle is accounted for once. -/
def Accounted (s : Cache) : Prop := ∀ l, s.tally l = if l < s.nextLlcache then 1 else 0

/-- A handle that left its retrieval context has one owner, or was released once. -/
def Settled (s : Cache) (l : Nat) : Prop := s.waiting l = 0 ∧ s.owners l + s.downloads.count l + s.released l = 1

/-- The migration of a context does not lose its handle, nor release it when a content has it. -/
structure Kept (handlers : Handlers τ) (s : Cache) (ctx : RetrievalCtx) (effectiveType : Option τ)
    (o : Outcome) : Prop where
  content : ∀ t, effectiveType = some t → typeIsAcceptable handlers t ctx.acceptedTypes = true →
    o.addUser = true ∨ s.contentList.find? (s.suits ctx) = none ∧
      (o.entry = false ∨ createContent handlers ctx.llcache ctx.quirks t o.create = none)
  download : (∀ t, effectiveType = some t → typeIsAcceptable handlers t ctx.acceptedTypes = false) →
    (effectiveType.map (contentType handlers)).getD 0 = 0 → ctx.mayDownload = true →
    (s.handle ctx.handle).any (·.cb) = true

/-! ## What the parts of a migration count -/

theorem tally_congr (hring : s'.ring = s.ring) (howners : ∀ l, s'.owners l = s.owners l)
    (hdownloads : s'.downloads = s.downloads) (hreleased : s'.released = s.released) (l : Nat) :
    s'.tally l = s.tally l := by
  unfold tally waiting
  rw [hring, howners, hdownloads, hreleased]

theorem tally_llcacheRelease (s : Cache) (l' l : Nat) :
    (s.llcacheRelease l').tally l = s.tally l + if l = l' then 1 else 0 := by
  unfold tally llcacheRelease
  simp only [Function.update_apply]
  by_cases hl : l = l'
  · rw [if_pos hl, if_pos hl, hl]
    rfl
  · rw [if_neg hl, if_neg hl]
    rfl

theorem owners_map {f : Entry → Entry} (hf : ∀ entry, (f entry).content.llcache = entry.content.llcache)
    (entries : List Entry) (l : Nat) :
    (entries.map f).countP (fun entry => decide (entry.content.llcache = l)) =
      entries.countP fun entry => decide (entry.content.llcache = l) := by
  rw [countP_map]
  apply congrArg fun p => List.countP p entries
  funext entry
  exact decide_eq_decide.mpr (by rw [hf])

@[simp] theorem nextLlcache_send (handle : Nat) (msg : Msg) : (s.send handle msg).nextLlcache = s.nextLlcache := by
  unfold send
  split <;> rfl

@[simp] theorem ring_send (handle : Nat) (msg : Msg) : (s.send handle msg).ring = s.ring := by
  unfold send
  split <;> rfl

@[simp] theorem downloads_send (handle : Nat) (msg : Msg) : (s.send handle msg).downloads = s.downloads := by
  unfold send
  split <;> rfl

@[simp] theorem tally_send (s : Cache) (handle : Nat) (msg : Msg) (l : Nat) :
    (s.send handle msg).tally l = s.tally l := by
  unfold send
  split <;> rfl

theorem tally_sendDownload (handle llcache l : Nat) :
    (s.sendDownload handle llcache).tally l = s.tally l + if l = llcache then 1 else 0 := by
  have hsend := s.tally_send handle (.download llcache) l
  unfold tally waiting owners at hsend ⊢
  rw [downloads_send] at hsend
  simp only [sendDownload, count_cons, beq_iff_eq]
  by_cases hl : l = llcache
  · rw [if_pos hl, if_pos hl.symm]
    omega
  · rw [if_neg hl, if_neg fun h => hl h.symm]
    omega

@[simp] theorem nextLlcache_associate (addr handle : Nat) (status : Status) :
    (s.associate addr handle status).nextLlcache = s.nextLlcache := by
  cases status <;> simp only [associate, nextLlcache_send]

@[simp] theorem ring_associate (addr handle : Nat) (status : Status) :
    (s.associate addr handle status).ring = s.ring := by
  cases status <;> simp only [associate, ring_send]

@[simp] theorem tally_associate (addr handle : Nat) (status : Status) (l : Nat) :
    (s.associate addr handle status).tally l = s.tally l := by
  cases status <;> simp only [associate, tally_send] <;> rfl

@[simp] theorem tally_addUser (addr handle l : Nat) : (s.addUser addr handle).tally l = s.tally l := by
  apply tally_congr
  · rfl
  · intro l
    apply owners_map
    intro entry
    split <;> rfl
  · rfl
  · rfl

theorem waiting_eraseIdx {i : Nat} {ctx : RetrievalCtx} (hctx : s.ring[i]? = some ctx) (l : Nat) : s.waiting l =
      (s.ring.eraseIdx i).countP (fun ctx => decide (ctx.llcache = l)) + if l = ctx.llcache then 1 else 0 := by
  obtain ⟨hi, rfl⟩ := List.getElem?_eq_some_iff.mp hctx
  have hperm := (getElem_cons_eraseIdx_perm hi).countP_eq fun ctx => decide (ctx.llcache = l)
  unfold waiting
  rw [← hperm, countP_cons]
  congr 1
  by_cases hl : l = s.ring[i].llcache
  · rw [if_pos hl, if_pos (decide_eq_true hl.symm)]
  · rw [if_neg hl, if_neg (by rwa [decide_eq_true_iff, eq_comm])]

theorem tally_eraseIdx {i : Nat} {ctx : RetrievalCtx} (hctx : s.ring[i]? = some ctx) (l : Nat) :
    Cache.tally { s with ring := s.ring.eraseIdx i } l + (if l = ctx.llcache then 1 else 0) = s.tally l := by
  unfold tally
  rw [waiting_eraseIdx hctx l]
  unfold waiting owners
  simp only
  omega

theorem tally_insert (addr : Nat) (content : Content) (l : Nat) :
    Cache.tally { s with contentList := { addr, content } :: s.contentList, nextEntry := addr + 1 } l =
      s.tally l + if l = content.llcache then 1 else 0 := by
  unfold tally owners waiting
  simp only [countP_cons]
  by_cases hl : l = content.llcache
  · rw [if_pos (decide_eq_true hl.symm), if_pos hl]
    omega
  · rw [if_neg (by rwa [decide_eq_true_iff, eq_comm]), if_neg hl]
    omega

theorem llcache_of_createContent {llcache : Nat} {quirks create : Bool} {t : τ} {content : Content}
    (h : createContent handlers llcache quirks t create = some content) : content.llcache = llcache := by
  unfold createContent at h
  split at h
  · cases h
  · split at h
    · cases h
      rfl
    · cases h

/-- How often the handle of a context is released or given to a content by `hlcache_find_content`. -/
structure Found (handlers : Handlers τ) (s : Cache) (ctx : RetrievalCtx) (t : τ) (o : Outcome) (error : Error)
    (s' : Cache) (k : Nat) : Prop where
  nextLlcache : s'.nextLlcache = s.nextLlcache
  ring : s'.ring = s.ring
  tally : ∀ l, s'.tally l = s.tally l + if l = ctx.llcache then k else 0
  taken : error ≠ .nomem → k = 1 ∧ o.addUser = true
  failed : error = .nomem → k ≤ 1 ∧ (k = 0 ↔ o.addUser = true ∨ s.contentList.find? (s.suits ctx) = none ∧
    (o.entry = false ∨ createContent handlers ctx.llcache ctx.quirks t o.create = none))

theorem findContent_spec (ctx : RetrievalCtx) (t : τ) (o : Outcome) :
    ∃ k, Found handlers s ctx t o (s.findContent handlers ctx t o).1 (s.findContent handlers ctx t o).2 k := by
  unfold findContent
  cases hfind : s.contentList.find? (s.suits ctx) with
  | some entry =>
    refine ⟨1, ?_⟩
    cases haddUser : o.addUser with
    | true =>
      constructor <;> simp only [if_pos, nextLlcache_associate, ring_associate, tally_associate, tally_addUser]
      · rfl
      · rfl
      · exact s.tally_llcacheRelease ctx.llcache
      · exact fun _ => ⟨trivial, haddUser⟩
      · exact fun h => nomatch h
    | false =>
      constructor <;> simp only [Bool.false_eq_true, if_false]
      · rfl
      · rfl
      · exact s.tally_llcacheRelease ctx.llcache
      · exact fun h => absurd rfl h
      · intro _
        simp [haddUser, hfind]
  | none =>
    cases hentry : o.entry with
    | false =>
      refine ⟨0, ?_⟩
      constructor <;> simp only [Bool.false_eq_true, if_false, ite_self, Nat.add_zero, implies_true]
      · exact fun h => absurd rfl h
      · simp [hfind, hentry]
    | true =>
      cases hcreate : createContent handlers ctx.llcache ctx.quirks t o.create with
      | none =>
        refine ⟨0, ?_⟩
        constructor <;> simp only [ite_self, Nat.add_zero, implies_true]
        · exact fun h => absurd rfl h
        · simp [hfind, hcreate]
      | some content =>
        have hllcache := llcache_of_createContent hcreate
        refine ⟨1, ?_⟩
        cases haddUser : o.addUser with
        | true =>
          constructor <;> simp only [if_true, nextLlcache_associate, ring_associate, tally_associate, tally_addUser]
          · rfl
          · rfl
          · intro l
            rw [tally_insert, hllcache]
          · exact fun _ => ⟨trivial, haddUser⟩
          · exact fun h => nomatch h
        | false =>
          constructor <;> simp only [if_true, Bool.false_eq_true, if_false]
          · intro l
            rw [tally_insert, hllcache]
          · exact fun h => absurd rfl h
          · simp [haddUser, hentry, hcreate]

/-- A migration takes the handle from its context to `k` places. -/
structure Migrated (handlers : Handlers τ) (s : Cache) (ctx : RetrievalCtx) (effectiveType : Option τ)
    (o : Outcome) (s' : Cache) (k : Nat) : Prop where
  nextLlcache : s'.nextLlcache = s.nextLlcache
  tally : ∀ l, s'.tally l + (if l = ctx.llcache then 1 else 0) = s.tally l + if l = ctx.llcache then k else 0
  waiting : ∀ l, s'.waiting l + (if l = ctx.llcache then 1 else 0) = s.waiting l
  kept : s.Kept handlers ctx effectiveType o ↔ k = 1

theorem Migrated.erase {i k : Nat} {ctx : RetrievalCtx} {effectiveType : Option τ} {o : Outcome}
    (hctx : s.ring[i]? = some ctx) (hnext : s'.nextLlcache = s.nextLlcache) (hring : s'.ring = s.ring)
    (htally : ∀ l, s'.tally l = s.tally l + if l = ctx.llcache then k else 0)
    (hkept : s.Kept handlers ctx effectiveType o ↔ k = 1) :
    Migrated handlers s ctx effectiveType o { s' with ring := s'.ring.eraseIdx i } k := by
  have hwaiting (l : Nat) := waiting_eraseIdx hctx l
  refine ⟨hnext, fun l => ?_, fun l => ?_, hkept⟩
  · rw [← htally l]
    unfold Cache.tally
    have hl : s'.waiting l = s.waiting l := by
      unfold Cache.waiting
      rw [hring]
    rw [hl, hwaiting l, hring]
    unfold Cache.waiting owners
    simp only
    omega
  · rw [hwaiting l, hring]
    rfl

theorem migrateCtx_spec {i : Nat} {ctx : RetrievalCtx} (hctx : s.ring[i]? = some ctx) (effectiveType : Option τ)
    (o : Outcome) :
    ∃ k, Migrated handlers s ctx effectiveType o (s.migrateCtx handlers i ctx effectiveType o).2 k := by
  unfold migrateCtx
  cases hfilter : effectiveType.filter fun t => typeIsAcceptable handlers t ctx.acceptedTypes with
  | some t =>
    obtain ⟨rfl, hacceptable⟩ := Option.filter_eq_some_iff.mp hfilter
    have hkept (p : Prop) (hp : p ↔ o.addUser = true ∨ s.contentList.find? (s.suits ctx) = none ∧
        (o.entry = false ∨ createContent handlers ctx.llcache ctx.quirks t o.create = none)) :
        s.Kept handlers ctx (some t) o ↔ p := by
      rw [hp]
      constructor
      · exact fun h => h.content t rfl hacceptable
      · refine fun h => ⟨fun t' ht _ => ?_, fun hnot => ?_⟩
        · cases ht
          exact h
        · rw [hnot t rfl] at hacceptable
          cases hacceptable
    obtain ⟨k, hfound⟩ := @findContent_spec _ handlers s ctx t o
    dsimp only
    generalize s.findContent handlers ctx t o = found at hfound
    obtain ⟨error, s₁⟩ := found
    cases error with
    | nomem =>
      refine ⟨k + 1, ?_⟩
      apply Migrated.erase hctx
      · exact (nextLlcache_send _ _).trans hfound.nextLlcache
      · exact (ring_send _ _).trans hfound.ring
      · intro l
        simp only [tally_llcacheRelease, tally_send, hfound.tally l]
        split <;> omega
      · apply hkept
        rw [← (hfound.failed rfl).2]
        omega
    | ok | needData =>
      refine ⟨k, ?_⟩
      apply Migrated.erase hctx hfound.nextLlcache hfound.ring hfound.tally
      apply hkept
      obtain ⟨hk, haddUser⟩ := hfound.taken (by simp)
      simp [hk, haddUser]
  | none =>
    have hnot : ∀ t, effectiveType = some t → typeIsAcceptable handlers t ctx.acceptedTypes = false := by
      rintro t rfl
      simpa using hfilter
    have hkept (p : Prop) (hp : p ↔ ((effectiveType.map (contentType handlers)).getD 0 = 0 →
        ctx.mayDownload = true → (s.handle ctx.handle).any (·.cb) = true)) :
        s.Kept handlers ctx effectiveType o ↔ p := by
      rw [hp]
      constructor
      · exact fun h => h.download hnot
      · refine fun h => ⟨fun t ht hacceptable => ?_, fun _ => h⟩
        rw [hnot t ht] at hacceptable
        cases hacceptable
    by_cases hdownload : (effectiveType.map (contentType handlers)).getD 0 = 0 ∧ ctx.mayDownload = true
    · simp only [if_pos hdownload]
      by_cases hcb : (s.handle ctx.handle).any (·.cb) = true
      · simp only [if_pos hcb]
        refine ⟨1, ?_⟩
        apply Migrated.erase hctx
        · exact nextLlcache_send _ _
        · exact ring_send _ _
        · exact tally_sendDownload _ _
        · apply hkept
          simp [hcb]
      · simp only [if_neg hcb]
        refine ⟨0, ?_⟩
        apply Migrated.erase hctx rfl rfl
        · simp
        · apply hkept
          simp [hcb, hdownload]
    · simp only [if_neg hdownload]
      refine ⟨1, ?_⟩
      apply Migrated.erase hctx
      · exact nextLlcache_send _ _
      · exact ring_send _ _
      · intro l
        simp only [tally_llcacheRelease, tally_send]
      · apply hkept
        simp only [not_and] at hdownload
        exact iff_of_true rfl fun htype hmay => absurd hmay (hdownload htype)

/-! ## Runs -/

theorem tally_destroy (s : Cache) (entries : List Entry) (l : Nat) : (s.destroy entries).tally l =
      s.tally l + entries.countP (fun entry => decide (entry.content.llcache = l)) := by
  unfold destroy
  induction entries generalizing s with
  | nil => rfl
  | cons entry entries ih =>
    rw [foldl_cons, ih, tally_llcacheRelease, countP_cons]
    by_cases hl : l = entry.content.llcache
    · rw [if_pos hl, if_pos (decide_eq_true hl.symm)]
      omega
    · rw [if_neg hl, if_neg (by rwa [decide_eq_true_iff, eq_comm])]
      omega

theorem destroy_eq (entries : List Entry) :
    s.destroy entries = { s with released := (s.destroy entries).released } := by
  unfold destroy
  induction entries generalizing s with
  | nil => rfl
  | cons entry entries ih =>
    rw [foldl_cons, ih]
    rfl

theorem released_destroy (s : Cache) (entries : List Entry) (l : Nat) : (s.destroy entries).released l =
      s.released l + entries.countP fun entry => decide (entry.content.llcache = l) := by
  have htally := s.tally_destroy entries l
  rw [destroy_eq] at htally
  unfold tally waiting owners at htally
  simp only at htally
  omega

theorem owners_split (entries : List Entry) (p : Entry → Bool) (l : Nat) :
    entries.countP (fun entry => decide (entry.content.llcache = l)) =
      (entries.filter fun entry => !p entry).countP (fun entry => decide (entry.content.llcache = l)) +
        (entries.filter p).countP (fun entry => decide (entry.content.llcache = l)) := by
  induction entries with
  | nil => rfl
  | cons entry entries ih =>
    rw [countP_cons, ih]
    cases hp : p entry <;> simp only [filter_cons, hp] <;> simp [countP_cons] <;> omega

theorem tally_clean (s : Cache) (forceClean : Bool) (l : Nat) : (s.clean forceClean).tally l = s.tally l := by
  have hsplit := owners_split s.contentList (Entry.cleanable forceClean) l
  unfold clean tally waiting owners
  simp only [released_destroy, hsplit]
  rw [destroy_eq]
  simp only
  omega

theorem Accounted.retrieve (h : s.Accounted) (mayDownload : Bool) (acceptedTypes : Nat) (quirks : Bool)
    (object : Nat) : (s.retrieve mayDownload acceptedTypes quirks object).Accounted := by
  intro l
  have hl := h l
  unfold Cache.retrieve tally waiting owners at *
  simp only [countP_append, countP_singleton, decide_eq_true_eq] at hl ⊢
  by_cases heq : s.nextLlcache = l
  · rw [if_pos heq]
    rw [if_neg (by omega)] at hl
    rw [if_pos (by omega)]
    omega
  · rw [if_neg heq, Nat.add_zero, hl]
    split <;> split <;> omega

theorem Accounted.handleRelease {handle : Nat} (h : s.Accounted) (hexec : s.handleRelease handle = some s') :
    s'.Accounted := by
  unfold Cache.handleRelease at hexec
  split at hexec
  · cases hexec
  · next addr cb _ =>
    cases hexec
    intro l
    rw [← h l]
    apply tally_congr
    · rfl
    · intro l
      apply owners_map
      intro entry
      split <;> rfl
    · rfl
    · rfl
  · cases hexec
    split
    · next i _ =>
      split
      · next ctx hctx =>
        refine fun l => Eq.trans ?_ (h l)
        have hreleased := s.tally_llcacheRelease ctx.llcache l
        have hctx' : (s.llcacheRelease ctx.llcache).ring[i]? = some ctx := hctx
        have herase := tally_eraseIdx hctx' l
        exact Nat.add_right_cancel (herase.trans hreleased)
      · exact h
    · exact h

theorem Accounted.downloadDone {l' : Nat} (h : s.Accounted) (hexec : s.downloadDone l' = some s') : s'.Accounted := by
  unfold Cache.downloadDone at hexec
  split at hexec
  · next hmem =>
    cases hexec
    refine fun l => Eq.trans ?_ (h l)
    have hcount := (perm_cons_erase hmem).count_eq l
    rw [count_cons] at hcount
    unfold tally waiting owners llcacheRelease
    simp only [Function.update_apply, beq_iff_eq] at hcount ⊢
    by_cases hl : l = l'
    · rw [← hl, if_pos rfl] at hcount
      rw [← hl, if_pos rfl]
      omega
    · rw [if_neg fun heq => hl heq.symm] at hcount
      rw [if_neg hl]
      omega
  · cases hexec

theorem Accounted.lt_of_ring (h : s.Accounted) {ctx : RetrievalCtx} (hmem : ctx ∈ s.ring) :
    ctx.llcache < s.nextLlcache := by
  by_contra hge
  have hl := h ctx.llcache
  rw [if_neg hge] at hl
  have hpos : 0 < s.waiting ctx.llcache := countP_pos_iff.mpr ⟨ctx, hmem, decide_eq_true rfl⟩
  unfold tally at hl
  omega

theorem Accounted.migrate {i : Nat} {ctx : RetrievalCtx} (h : s.Accounted) (hctx : s.ring[i]? = some ctx)
    (effectiveType : Option τ) (o : Outcome) :
    ((s.migrateCtx handlers i ctx effectiveType o).2.Settled ctx.llcache ↔ s.Kept handlers ctx effectiveType o) ∧
      (s.Kept handlers ctx effectiveType o → (s.migrateCtx handlers i ctx effectiveType o).2.Accounted) := by
  obtain ⟨k, hmigrated⟩ := @migrateCtx_spec _ handlers _ _ _ hctx effectiveType o
  have hlt := h.lt_of_ring (mem_of_getElem? hctx)
  constructor
  · rw [hmigrated.kept]
    have hl := h ctx.llcache
    rw [if_pos hlt] at hl
    have htally := hmigrated.tally ctx.llcache
    have hwaiting := hmigrated.waiting ctx.llcache
    rw [if_pos rfl, if_pos rfl] at htally
    rw [if_pos rfl] at hwaiting
    unfold Settled
    unfold tally at htally hl
    omega
  · rintro hkept l
    rw [hmigrated.nextLlcache, ← h l]
    have htally := hmigrated.tally l
    rw [hmigrated.kept.mp hkept] at htally
    exact Nat.add_right_cancel htally

end Cache

/-- The migrations of a run keep the handles of their contexts. -/
def Step.Kept (handlers : Handlers τ) (s : Cache) : Step τ → Prop
  | migrate i effectiveType o => ∀ ctx, s.ring[i]? = some ctx → s.Kept handlers ctx effectiveType o
  | _ => True

namespace Cache

theorem Accounted.exec {step : Step τ} (h : s.Accounted) (hkept : step.Kept handlers s)
    (hexec : step.exec handlers s = some s') : s'.Accounted := by
  cases step with
  | retrieve mayDownload acceptedTypes quirks object =>
    cases hexec
    exact h.retrieve mayDownload acceptedTypes quirks object
  | replaceCallback handle cb =>
    cases hexec
    exact h
  | migrate i effectiveType o =>
    obtain ⟨ctx, hctx, rfl⟩ := Option.map_eq_some_iff.mp hexec
    exact (h.migrate hctx effectiveType o).2 (hkept ctx hctx)
  | release handle => exact h.handleRelease hexec
  | clean forceClean =>
    cases hexec
    intro l
    rw [tally_clean, h l]
    unfold clean
    rw [destroy_eq]
  | setStatus addr status =>
    cases hexec
    refine fun l => Eq.trans ?_ (h l)
    apply tally_congr
    · rfl
    · intro l
      apply owners_map
      intro entry
      split <;> rfl
    · rfl
    · rfl
  | downloadDone llcache => exact h.downloadDone hexec

/-- Who has a handle in a run, and how often `content_destroy` releases it. -/
theorem owned_of_run {steps : List (Step τ)}
    (hr : (cacheSystem handlers).Run (fun step s => step.Kept handlers s) steps s) :
    s.Accounted ∧
      (∀ i ctx effectiveType o, s.ring[i]? = some ctx →
        ((s.migrateCtx handlers i ctx effectiveType o).2.Settled ctx.llcache ↔
          s.Kept handlers ctx effectiveType o)) ∧
      ∀ forceClean, ∀ entry ∈ s.contentList, Entry.cleanable forceClean entry = true →
        s.released entry.content.llcache = 0 ∧ (s.clean forceClean).released entry.content.llcache = 1 := by
  have hinv : s.Accounted := by
    apply hr.invariant (I := Accounted)
    · rintro s rfl l
      rfl
    · exact fun step s s' hkept hexec h => h.exec hkept hexec
  refine ⟨hinv, fun i ctx effectiveType o hctx => (hinv.migrate hctx effectiveType o).1, ?_⟩
  intro forceClean entry hmem hclean
  have howned : 0 < s.owners entry.content.llcache := countP_pos_iff.mpr ⟨entry, hmem, decide_eq_true rfl⟩
  have hdestroyed : 0 < (s.contentList.filter (Entry.cleanable forceClean)).countP fun entry' =>
      decide (entry'.content.llcache = entry.content.llcache) :=
    countP_pos_iff.mpr ⟨entry, mem_filter.mpr ⟨hmem, hclean⟩, decide_eq_true rfl⟩
  have hreleased := s.released_destroy (s.contentList.filter (Entry.cleanable forceClean)) entry.content.llcache
  have hle : s.tally entry.content.llcache ≤ 1 := by
    rw [hinv entry.content.llcache]
    split <;> omega
  have hle' := hle
  rw [← s.tally_clean forceClean entry.content.llcache] at hle'
  unfold tally at hle hle'
  unfold clean at hle' ⊢
  simp only at hle' ⊢
  omega

/-- One handler, for contents that are shared. -/
def oneHandler : Handlers Unit := fun _ => some { type := 1, noShare := false, matchesQuirks := fun _ _ => true }

/-- A content is made, its user leaves, and it is destroyed. -/
theorem owned_of_run_destroyed : ∃ steps s,
    (cacheSystem oneHandler).Run (fun step s => step.Kept oneHandler s) steps s ∧ s.released 0 = 1 ∧
      s.contentList.length = 0 ∧ s.Accounted := by
  have hr : (cacheSystem oneHandler).Run (fun step s => step.Kept oneHandler s) [] _ := .start rfl
  have hretrieve := hr.step (.retrieve false 1 false 7) trivial rfl
  have hmigrate := hretrieve.step (.migrate 0 (some ()) ⟨true, true, true⟩)
    (by rintro ctx hctx; cases hctx; exact ⟨fun _ _ _ => .inl rfl, fun h => nomatch h () rfl⟩) rfl
  have hdone := hmigrate.step (.setStatus 0 .done) trivial rfl
  have hrelease := hdone.step (.release 0) trivial rfl
  have hclean := hrelease.step (.clean false) trivial rfl
  exact ⟨_, _, hclean, rfl, rfl, (owned_of_run hclean).1⟩

/-- The second context finds the content of the first, and gets no user. -/
theorem not_owned : ∃ steps s, (cacheSystem oneHandler).AnyRun steps s ∧ s.released 1 = 2 ∧
    ¬ s.Settled 1 := by
  have hr : (cacheSystem oneHandler).AnyRun [] _ := .start rfl
  have hfirst := hr.step (.retrieve false 1 false 7) trivial rfl
  have hmigrate := hfirst.step (.migrate 0 (some ()) ⟨true, true, true⟩) trivial rfl
  have hsecond := hmigrate.step (.retrieve false 1 false 7) trivial rfl
  have hfound := hsecond.step (.migrate 0 (some ()) ⟨true, true, false⟩) trivial rfl
  refine ⟨_, _, hfound, rfl, fun hsettled => ?_⟩
  have hone := hsettled.2
  revert hone
  decide

end Cache

end Nami.Hlcache
