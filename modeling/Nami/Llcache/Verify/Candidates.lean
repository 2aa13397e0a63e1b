import Nami.Llcache.Verify.Retrieving
import Nami.Llcache.Verify.Ownership

/-!
# Candidate counts and destroyed objects over runs

What every step of the cache keeps, and from it what holds in every run: the count of each object is the
number of objects that have it for their candidate, and nothing that is used is destroyed.
-/

namespace Nami.Llcache

open List
open Ascii

variable {P : Platform} {exact safe : Prop}

/-! ## Users -/

namespace Object

variable {object object' : Object P}

@[simp] theorem onUser_users_nil (user : Nat) (f : User → User) (h : object.users = []) :
    (object.onUser user f).users = [] := by
  unfold onUser
  rw [h, map_nil]

@[simp] theorem removeUser_users_nil (user : Nat) (h : object.users = []) : (object.removeUser user).users = [] := by
  unfold removeUser
  rw [h, filter_nil]

theorem Good.not_away (h : object.Good safe) (husers : object.users ≠ []) : safe → ¬ object.Away :=
  fun hsafe haway => husers (h.unused hsafe haway).1

end Object

namespace Cache

variable {cache : Cache P} {object object' : Object P} {id handle : Nat}

theorem userOf_some {user : User} (h : cache.userOf handle = some (object, user)) :
    object ∈ cache.objects ∧ object.users ≠ [] := by
  unfold userOf at h
  obtain ⟨found, hmem, hfound⟩ := exists_of_findSome?_eq_some h
  obtain ⟨user', huser, heq⟩ := Option.map_eq_some_iff.1 hfound
  cases heq
  exact ⟨hmem, ne_nil_of_mem (mem_of_find?_eq_some huser)⟩

/-! ## Handles -/

variable (h : cache.Inv exact safe [])

include h

theorem Inv.putUsers (hx : object ∈ cache.objects) (users : List User) (husers : object.users = [] → users = []) :
    (cache.put { object with users }).Inv exact safe [] :=
  h.put hx rfl rfl rfl ((h.good object hx).mono rfl rfl (fun hf => hf) husers fun hc => hc)

theorem Inv.putUsers_present (hx : object ∈ cache.objects) (haway : safe → ¬ object.Away)
    (users : List User) : (cache.put { object with users }).Inv exact safe [] :=
  h.put hx rfl rfl rfl ((h.good object hx).of_not_away rfl rfl (fun hf => hf) haway)

theorem Inv.bump : { cache with nextId := cache.nextId + 1 }.Inv exact safe [] :=
  h.frame rfl (Nat.le_succ _) h.store rfl

theorem Inv.handleRetrieve {env : RetrieveEnv P} {url : Nsurl.Hashed P} {request : Request}
    (hfinds : exact → cache.FindsSettled url) (admits : Bool) :
    (cache.handleRetrieve env admits url request).Inv exact safe [] := by
  unfold Cache.handleRetrieve
  split
  · exact h
  · obtain ⟨hinv, hpresent⟩ : (cache.retrieve env url request).1.Inv exact safe [] ∧ _ := h.retrieve hfinds
    rcases hr : cache.retrieve env url request with ⟨cache', _ | id⟩
    · rw [hr] at hinv
      exact hinv
    · rw [hr] at hinv hpresent
      dsimp only
      cases hget : cache'.get id with
      | none => exact hinv
      | some object =>
        obtain ⟨hx, hid⟩ := get_some hget
        exact hinv.bump.putUsers_present hx (fun hsafe => hpresent hsafe id rfl object hx hid) _

theorem Inv.handleRelease (handle : Nat) : (cache.handleRelease handle).Inv exact safe [] := by
  unfold Cache.handleRelease
  cases huser : cache.userOf handle with
  | none => exact h
  | some found =>
    obtain ⟨object, user⟩ := found
    obtain ⟨hx, husers⟩ := userOf_some huser
    have haway := (h.good object hx).not_away husers
    dsimp only
    split
    · exact h.putUsers_present hx haway _
    · exact h.putUsers_present hx haway _

theorem Inv.handleClone (handle : Nat) (mem : Bool) : (cache.handleClone handle mem).Inv exact safe [] := by
  unfold Cache.handleClone
  cases huser : cache.userOf handle with
  | none => exact h
  | some found =>
    obtain ⟨object, user⟩ := found
    obtain ⟨hx, husers⟩ := userOf_some huser
    dsimp only
    split
    · exact h
    · exact h.bump.putUsers_present hx ((h.good object hx).not_away husers) _

theorem Inv.handleForceStream (handle : Nat) : (cache.handleForceStream handle).Inv exact safe [] := by
  unfold Cache.handleForceStream
  cases huser : cache.userOf handle with
  | none => exact h
  | some found =>
    obtain ⟨object, user⟩ := found
    obtain ⟨hx, husers⟩ := userOf_some huser
    have hgood : { object with fetch := { object.fetch with streamData := true } }.Good safe :=
      (h.good object hx).mono rfl rfl (fun hf => hf) (fun hu => hu) fun hc => hc
    dsimp only
    split
    · exact h
    · split
      · next hcached =>
        obtain ⟨other, hother, hid⟩ := any_eq_true.1 hcached
        obtain rfl := h.eq_of_id hx (mem_cached hother) (of_decide_eq_true hid)
        exact h.move hother rfl rfl rfl hgood
      · exact h.put hx rfl rfl rfl hgood

theorem Inv.handleInvalidateCacheData (handle : Nat) : (cache.handleInvalidateCacheData handle).Inv exact safe [] := by
  unfold Cache.handleInvalidateCacheData
  cases huser : cache.userOf handle with
  | none => exact h
  | some found =>
    obtain ⟨object, user⟩ := found
    obtain ⟨hx, -⟩ := userOf_some huser
    dsimp only
    split
    · exact h.put hx rfl rfl rfl ((h.good object hx).mono rfl rfl (fun hf => hf) (fun hu => hu) fun hc => hc)
    · exact h

/-! ## Aborting -/

theorem Inv.abortSnapshot (env : SnapshotEnv P) (hx : object ∈ cache.objects) (husers : object.users ≠ [])
    (user : User) : (cache.abortSnapshot env object user).Inv exact safe [] := by
  have haway := (h.good object hx).not_away husers
  unfold Cache.abortSnapshot
  split
  · exact h
  · dsimp only
    split
    · exact h.destroyNew env.release rfl rfl rfl
    · split
      · exact h.destroyNew env.release rfl rfl rfl
      · split
        · split
          · exact h.destroyNew env.release rfl rfl rfl
          · have hput := h.putUsers_present hx haway (object.onUser user.id fun user =>
              { user with handle := none, queuedForDelete := true }).users
            exact (@Inv.addUncached _ _ _ [] _ ((object.snapshot cache.nextId
              (env.buffer.getD 0)).addUser { User.new (cache.nextId + 1) with handle := user.handle })
              hput (fun i hi => by cases hi) rfl rfl (.of_ram rfl)).bump
        · have hput := h.putUsers_present hx haway (object.removeUser user.id).users
          exact @Inv.addUncached _ _ _ [] _ ((object.snapshot cache.nextId
            (env.buffer.getD 0)).addUser user) hput (fun i hi => by cases hi) rfl rfl (.of_ram rfl)

theorem Inv.handleAbort (env : SnapshotEnv P) (handle : Nat) : (cache.handleAbort env handle).Inv exact safe [] := by
  unfold Cache.handleAbort
  cases huser : cache.userOf handle with
  | none => exact h
  | some found =>
    obtain ⟨object, user⟩ := found
    obtain ⟨hx, husers⟩ := userOf_some huser
    dsimp only
    split
    · exact h.put hx rfl rfl rfl ((h.good object hx).mono rfl rfl (fun _ => rfl) (fun hu => hu) fun hc => hc)
    · exact h.abortSnapshot env hx husers user

/-! ## Telling users -/

theorem Inv.tell (id user : Nat) (state : FetchState) (bytes : Nat) (flush : Bool) :
    (cache.tell id user state bytes flush).Inv exact safe [] := by
  unfold Cache.tell
  cases hget : cache.get id with
  | none => exact h
  | some object =>
    obtain ⟨hx, -⟩ := get_some hget
    exact h.put hx rfl rfl rfl ((h.good object hx).mono rfl rfl (fun hf => hf)
      (fun hu => Object.onUser_users_nil user _ hu) fun hc => hc)

theorem Inv.told (id user : Nat) (wasTarget : Bool) : (cache.told id user wasTarget).Inv exact safe [] := by
  unfold Cache.told
  cases hget : cache.get id with
  | none => exact h
  | some object =>
    obtain ⟨hx, -⟩ := get_some hget
    dsimp only
    split
    · exact h.putUsers hx _ fun hu => Object.removeUser_users_nil user hu
    · exact h.putUsers hx _ fun hu => Object.onUser_users_nil user _ hu

/-! ## Events of fetches -/

theorem Inv.fail {env : CleanEnv P} {err : NsError}
    (htidy : err = .nomem → cache.Tidy exact safe exact cache.params env.now) (id : Nat) :
    (cache.fail env id err).Inv exact safe [] := by
  have hclean : (if err = .nomem then cache.clean env true else cache).Inv exact safe [] := by
    split
    · next herr => exact ((htidy herr).clean true).inv
    · exact h
  unfold Cache.fail
  dsimp only
  cases hget : (if err = .nomem then cache.clean env true else cache).get id with
  | none => exact hclean
  | some object =>
    obtain ⟨hx, -⟩ := get_some hget
    have hgood := hclean.good object hx
    have hfailed : object.failed.id = object.id ∧ object.failed.candidate = object.candidate ∧
        object.failed.candidateCount = object.candidateCount ∧ object.failed.Good safe := by
      unfold Object.failed
      split
      · exact ⟨rfl, rfl, rfl, hgood.mono rfl rfl (fun _ => rfl) (fun hu => hu) fun hc => hc⟩
      · exact ⟨rfl, rfl, rfl, hgood⟩
    exact hclean.put hx hfailed.1 hfailed.2.1 hfailed.2.2.1 hfailed.2.2.2

theorem Inv.releaseCandidate (hx : object ∈ cache.objects) (hhandled : object.Handled object')
    (hgood : object'.Good safe) :
    ((cache.put object').releaseCandidate object object').Inv exact safe [] := by
  unfold Cache.releaseCandidate
  rcases hhandled.candidate with hsame | hnone
  · have hput := h.put hx hhandled.id hsame hhandled.count hgood
    rw [hsame]
    cases object.candidate <;> exact hput
  · have hclear := h.clear hx hhandled.id hnone hhandled.count hgood
    rw [hnone]
    cases hcandidate : object.candidate with
    | none =>
      rw [hcandidate] at hclear
      exact hclear
    | some candidate =>
      rw [hcandidate] at hclear
      exact hclear.unretain

omit h in
theorem Inv.unretain_objects {hand : List Nat} (h : cache.Inv exact safe hand) (id : Nat) :
    (∀ object ∈ (cache.unretain id).objects, ∃ old ∈ cache.objects, ∃ candidateCount,
      object = { old with candidateCount }) ∧
    ∀ object ∈ (cache.unretain id).cachedObjects, ∃ old ∈ cache.cachedObjects, ∃ candidateCount,
      object = { old with candidateCount } := by
  unfold Cache.unretain
  cases hget : cache.get id with
  | none => exact ⟨fun object hx => ⟨object, hx, _, rfl⟩, fun object hx => ⟨object, hx, _, rfl⟩⟩
  | some found =>
    obtain ⟨hfound, -⟩ := get_some hget
    have hwrite : ∀ old ∈ cache.objects, ∃ candidateCount,
        (if old.id = found.id then { found with candidateCount := found.candidateCount - 1 } else old) =
          { old with candidateCount } := by
      intro old hold
      split
      · next hid =>
        obtain rfl := h.eq_of_id hfound hold hid
        exact ⟨_, rfl⟩
      · exact ⟨_, rfl⟩
    constructor
    · intro object hx
      dsimp only at hx
      rw [objects_put] at hx
      obtain ⟨old, hold, rfl⟩ := mem_map.1 hx
      exact ⟨old, hold, hwrite old hold⟩
    · intro object hx
      unfold Cache.put at hx
      obtain ⟨old, hold, rfl⟩ := mem_map.1 hx
      exact ⟨old, hold, hwrite old (mem_cached hold)⟩

omit h in
theorem unretain_params : (cache.unretain id).params = cache.params := by
  unfold Cache.unretain
  split <;> rfl

theorem Inv.releaseCandidate_tidy {env : CleanEnv P} (hx : object ∈ cache.objects)
    (hhandled : object.Handled object') (hgood : object'.Good safe) (hended : object.Ended object')
    (hsettled : exact → ∀ other ∈ cache.objects, other.Settled)
    (hbare : safe → ∀ other ∈ cache.cachedObjects, ¬ other.Bare cache.params env.now ∧
      (other.id = object.id → ¬ other.complete.invalidateCache.Bare cache.params env.now)) :
    ((cache.put object').releaseCandidate object object').Tidy exact safe exact
      ((cache.put object').releaseCandidate object object').params env.now := by
  have hput : (∀ other ∈ (cache.put object').objects, exact → other.Settled) ∧
      ∀ other ∈ (cache.put object').cachedObjects, safe → ¬ other.Bare cache.params env.now := by
    constructor
    · intro other hother hexact
      rcases mem_put hother with rfl | ⟨hother, -⟩
      · intro _ hfetch
        rcases hended with htrue | ⟨hnone, -⟩
        · rw [hfetch] at htrue
          cases htrue
        · exact hnone
      · exact hsettled hexact other hother
    · intro other hother hsafe hother'
      unfold Cache.put at hother
      obtain ⟨old, hold, rfl⟩ := mem_map.1 hother
      split at hother'
      · next hid =>
        obtain ⟨hscheme, hfetch, hram, hlife, haddr⟩ := hother'
        obtain rfl := h.eq_of_id hx (mem_cached hold) (hid.trans hhandled.id)
        rcases hended with htrue | ⟨-, hcache, hdata⟩
        · rw [hfetch] at htrue
          cases htrue
        · rw [hhandled.url] at hscheme
          rw [hhandled.storeState] at hram
          rw [hcache] at hlife
          rw [hdata] at haddr
          exact (hbare hsafe old hold).2 rfl ⟨hscheme, rfl, hram, hlife, haddr⟩
      · exact (hbare hsafe old hold).1 hother'
  have hinv := h.releaseCandidate hx hhandled hgood
  refine ⟨hinv, rfl, ?_, ?_⟩
  · unfold Cache.releaseCandidate
    split
    · next candidate hcandidate hnone =>
      have hclear := h.clear hx hhandled.id hnone hhandled.count hgood
      intro hexact other hother
      obtain ⟨old, hold, count, rfl⟩ := (hclear.unretain_objects candidate).1 other hother
      exact hput.1 old hold hexact
    · exact fun hexact other hother => hput.1 other hother hexact
  · unfold Cache.releaseCandidate
    split
    · next candidate hcandidate hnone =>
      have hclear := h.clear hx hhandled.id hnone hhandled.count hgood
      intro hsafe other hother
      obtain ⟨old, hold, count, rfl⟩ := (hclear.unretain_objects candidate).2 other hother
      rw [unretain_params]
      exact hput.2 old hold hsafe
    · exact fun hsafe other hother => hput.2 other hother hsafe

theorem Inv.message {env : Env} {purge : CleanEnv P} (hx : object ∈ cache.objects)
    (hfetch : object.fetch.fetch = true) (msg : FetchMsg)
    (hsettled : exact → env.mem = false ∨ env.realloc = none → ∀ other ∈ cache.objects, other.Settled)
    (hbare : safe → env.mem = false ∨ env.realloc = none → ∀ other ∈ cache.cachedObjects,
      ¬ other.Bare cache.params purge.now ∧
      (other.id = object.id → ¬ other.complete.invalidateCache.Bare cache.params purge.now)) :
    (cache.message env purge object msg).Inv exact safe [] := by
  obtain ⟨hhandled, hnomem⟩ := Object.handle_keeps env hfetch msg
  have hram : object.storeState = .ram := by
    cases hstate : object.storeState with
    | ram => rfl
    | disc =>
      rw [(h.good object hx).fetch hstate] at hfetch
      cases hfetch
  have hgood : (object.handle env msg).1.Good safe := .of_ram (hhandled.storeState.trans hram)
  have hinv := h.releaseCandidate hx hhandled hgood
  unfold Cache.message
  rcases hr : object.handle env msg with ⟨object', r⟩
  rw [hr] at hhandled hnomem hgood hinv
  dsimp only
  cases r with
  | ok event => exact hinv
  | error err =>
    refine hinv.fail (fun herr => ?_) object.id
    subst herr
    obtain ⟨hmem, hended⟩ := hnomem rfl
    exact h.releaseCandidate_tidy hx hhandled hgood hended (fun hexact => hsettled hexact hmem)
      fun hsafe => hbare hsafe hmem

theorem Inv.notModified (now : Int) (hx : object ∈ cache.objects) :
    (cache.notModified now object).Inv exact safe [] := by
  have hgood := h.good object hx
  unfold Cache.notModified
  cases hcandidate : object.candidate with
  | none =>
    exact h.put hx rfl rfl rfl (hgood.mono rfl rfl (fun _ => rfl) (fun hu => hu) fun hc => hc)
  | some id =>
    have hgood' : { object.complete.invalidateCache with users := [], candidate := none }.Good safe :=
      hgood.mono rfl rfl (fun _ => rfl) (fun _ => rfl) fun hc => hc
    have hclear := @Inv.clear _ _ _ _ _ _ { object.complete.invalidateCache with users := [], candidate := none }
      h hx rfl rfl rfl hgood'
    rw [hcandidate] at hclear
    have hinv := hclear.unretain
    dsimp only
    cases hget : ((cache.put { object.complete.invalidateCache with
        users := [], candidate := none }).unretain id).get id with
    | none => exact hinv
    | some candidate =>
      obtain ⟨hcand, hid⟩ := get_some hget
      -- the object that was at this address has a reference
      have haway : safe → ¬ candidate.Away := by
        intro hsafe haway
        obtain ⟨old, hold, count, rfl⟩ := (hclear.unretain_objects id).1 candidate hcand
        have hpos : ∀ other ∈ cache.objects, other.id = id → ¬ other.Away := by
          rintro other hother rfl hother'
          have hcount := RefCount.Sound.count_pos_of_target (C := candidates P) h.counted hother hx hcandidate
          exact Nat.ne_of_gt hcount ((h.good other hother).unused hsafe hother').2
        rcases mem_put hold with rfl | ⟨hold, -⟩
        · exact hpos object hx hid haway
        · exact hpos old hold hid haway
      exact hinv.put hcand rfl rfl rfl ((hinv.good candidate hcand).of_not_away rfl rfl (fun hf => hf) haway)

theorem Inv.redirect (httpCode : Nat) (target : Option (Nsurl.Hashed P)) (hx : object ∈ cache.objects) :
    (cache.redirect httpCode target object).Inv exact safe [] := by
  have hinv := @Inv.releaseCandidate _ _ _ _ _ { object.complete.invalidateCache with candidate := none } h
    hx ⟨rfl, rfl, rfl, rfl, rfl, .inr rfl⟩
    ((h.good object hx).mono rfl rfl (fun _ => rfl) (fun hu => hu) fun hc => hc)
  unfold Cache.redirect
  dsimp only
  split
  · exact hinv
  · split
    · exact hinv.frame rfl (Nat.le_refl _) hinv.store rfl
    · exact hinv

theorem Inv.moveUsers (hx : object ∈ cache.objects) (hy : object' ∈ cache.objects)
    (haway : safe → ¬ object'.Away) (users : List User) :
    ((cache.put { object' with users }).put { object with users := [] }).Inv exact safe [] := by
  have hput := h.putUsers_present hy haway users
  have hgood : { object with users := [] }.Good safe :=
    (h.good object hx).mono rfl rfl (fun hf => hf) (fun _ => rfl) fun hc => hc
  by_cases hid : object.id = object'.id
  · obtain rfl := h.eq_of_id hy hx hid
    refine @Inv.put _ _ _ _ _ { object with users } _ hput ?_ rfl rfl rfl hgood
    rw [objects_put]
    exact mem_map.2 ⟨object, hx, if_pos rfl⟩
  · refine @Inv.put _ _ _ _ _ object _ hput ?_ rfl rfl rfl hgood
    rw [objects_put]
    exact mem_map.2 ⟨object, hx, if_neg hid⟩

theorem Inv.redirected {env : RetrieveEnv P} (id : Nat) (ok : Bool)
    (hfinds : exact → ∀ r, cache.redirecting.find? (fun r => r.1 = id) = some r →
      cache.FindsSettled r.2.1) : (cache.redirected env id ok).Inv exact safe [] := by
  unfold Cache.redirected
  split
  · next i url post object hfind hget =>
    have hframe : { cache with redirecting := cache.redirecting.filter fun r => r.1 ≠ id }.Inv
        exact safe [] :=
      h.frame rfl (Nat.le_refl _) h.store rfl
    dsimp only
    split
    · exact hframe
    · obtain ⟨hinv, hpresent⟩ := @Inv.retrieve _ _ _ _ url env {
        forceFetch := object.fetch.forceFetch
        streamData := object.fetch.streamData
        post
        redirectCount := object.fetch.redirectCount + 1
        hstsInUse := object.fetch.hstsInUse } hframe fun hexact => hfinds hexact (i, url, post) hfind
      split
      · next cache' hr =>
        rw [hr] at hinv
        exact hinv
      · next cache' dest hr =>
        rw [hr] at hinv hpresent
        split
        · next object destObject hobject hdest =>
          obtain ⟨hx, -⟩ := get_some hobject
          obtain ⟨hy, hid⟩ := get_some hdest
          exact hinv.moveUsers hx hy (fun hsafe => hpresent hsafe dest rfl destObject hy hid) _
        · exact hinv
  · exact h

end Cache

/-! ## Steps -/

/-- No step discards an object that still has a candidate: when the cache may be cleaned, each object that
nothing but its count keeps has none, and when an object is retrieved whose data has to be read back, it
has none. -/
def CacheOp.SettledAt (cache : Cache P) : CacheOp P → Prop
  | .clean _ _ => ∀ object ∈ cache.objects, object.Settled
  | .refused _ _ err => err = .nomem → ∀ object ∈ cache.objects, object.Settled
  | .message env _ _ _ => env.mem = false ∨ env.realloc = none → ∀ object ∈ cache.objects, object.Settled
  | .retrieve _ _ url _ => cache.FindsSettled url
  | .redirected _ id _ => ∀ r, cache.redirecting.find? (fun r => r.1 = id) = some r →
    cache.FindsSettled r.2.1
  | _ => True

/-- No step persists an object without data: when objects may be persisted, none that can be has the null
pointer for its data. An event that runs out of memory may leave its object without a fetch before that. -/
def CacheOp.BackedAt (cache : Cache P) : CacheOp P → Prop
  | .clean env _ | .persist env => ∀ object ∈ cache.cachedObjects, ¬ object.Bare cache.params env.now
  | .refused purge _ err => err = .nomem →
    ∀ object ∈ cache.cachedObjects, ¬ object.Bare cache.params purge.now
  | .message env purge id _ => env.mem = false ∨ env.realloc = none →
    ∀ object ∈ cache.cachedObjects, ¬ object.Bare cache.params purge.now ∧
      (object.id = id → ¬ object.complete.invalidateCache.Bare cache.params purge.now)
  | _ => True

theorem Cache.Inv.onFetch {cache : Cache P} (h : cache.Inv exact safe []) {id : Nat}
    {f : Object P → Cache P} (hf : ∀ object ∈ cache.objects, object.id = id → object.fetch.fetch = true →
      (f object).Inv exact safe []) : (cache.onFetch id f).Inv exact safe [] := by
  unfold Cache.onFetch
  cases hget : cache.get id with
  | none => exact h
  | some object =>
    obtain ⟨hx, hid⟩ := Cache.get_some hget
    dsimp only
    split
    · next hfetch => exact hf object hx hid hfetch
    · exact h

theorem Cache.Inv.act {cache : Cache P} (h : cache.Inv exact safe []) (op : CacheOp P)
    (hsettled : exact → op.SettledAt cache) (hbacked : safe → op.BackedAt cache) :
    (cache.act op).Inv exact safe [] := by
  cases op with
  | retrieve env admits url request => exact h.handleRetrieve hsettled admits
  | release handle => exact h.handleRelease handle
  | clone handle mem => exact h.handleClone handle mem
  | abort env handle => exact h.handleAbort env handle
  | forceStream handle => exact h.handleForceStream handle
  | invalidateCacheData handle => exact h.handleInvalidateCacheData handle
  | tell id user state bytes flush => exact h.tell id user state bytes flush
  | told id user wasTarget => exact h.told id user wasTarget
  | refused purge id err =>
    exact h.fail (fun herr => ⟨h, rfl, fun hexact => hsettled hexact herr, fun hsafe => hbacked hsafe herr⟩) id
  | message env purge id msg =>
    apply h.onFetch
    rintro object hx rfl hfetch
    exact h.message hx hfetch msg hsettled hbacked
  | notModified now id => exact h.onFetch fun object hx _ _ => h.notModified now hx
  | redirect httpCode target id => exact h.onFetch fun object hx _ _ => h.redirect httpCode target hx
  | redirected env id ok => exact h.redirected id ok hsettled
  | clean env purge =>
    have htidy : cache.Tidy exact safe exact cache.params env.now := ⟨h, rfl, hsettled, hbacked⟩
    exact (htidy.clean purge).inv
  | persist env =>
    have htidy : cache.Tidy exact safe False cache.params env.now := ⟨h, rfl, False.elim, hbacked⟩
    exact htidy.persist.inv
  | persistSlowcheck env =>
    unfold Cache.act Cache.persistSlowcheck
    dsimp only
    split
    · exact h.withStore fun hsafe => (h.store hsafe).exec env .finalise (fun _ _ hcall => by cases hcall) trivial
    · exact h
  | controlMaintenance env =>
    exact h.withStore fun hsafe => (h.store hsafe).exec env .controlMaintenance
      (fun _ _ hcall => by cases hcall) trivial

theorem Cache.initial_inv (params : Params) (env : BackingStore.Env P) (limit hysteresis : Nat)
    (disc : BackingStore.Disc) : (Cache.initial params
      ((BackingStore.World.down disc).exec env (.initialise limit hysteresis)).1).Inv exact safe [] where
  counted := .nil ..
  good object hx := by cases hx
  store _ := BackingStore.World.initialise_dataNonNull env limit hysteresis disc
  destroyed _ d hd := by cases hd

/-! ## Given runs -/

section

instance (object : Object P) : Decidable object.Away := inferInstanceAs (Decidable (_ ∧ _))

instance (object : Object P) : Decidable object.Settled := inferInstanceAs (Decidable (_ → _ → _))

instance (params : Params) (now : Int) (object : Object P) : Decidable (object.Bare params now) :=
  inferInstanceAs (Decidable (_ ∧ _ ∧ _ ∧ _ ∧ _))

instance (cache : Cache P) (url : Nsurl.Hashed P) : Decidable (cache.FindsSettled url) :=
  inferInstanceAs (Decidable (∀ newest ∈ cache.newest url, newest.Away → newest.candidate = none))

instance (cache : Cache P) : DecidablePred (CacheOp.SettledAt cache)
  | .clean _ _ => inferInstanceAs (Decidable (∀ object ∈ cache.objects, object.Settled))
  | .refused _ _ err => inferInstanceAs (Decidable (err = .nomem → ∀ object ∈ cache.objects, object.Settled))
  | .message env _ _ _ => inferInstanceAs (Decidable
    (env.mem = false ∨ env.realloc = none → ∀ object ∈ cache.objects, object.Settled))
  | .retrieve _ _ url _ => inferInstanceAs (Decidable (cache.FindsSettled url))
  | .redirected _ id _ => inferInstanceAs (Decidable
    (∀ r ∈ cache.redirecting.find? fun r => r.1 = id, cache.FindsSettled r.2.1))
  | .release _ | .clone _ _ | .abort _ _ | .forceStream _ | .invalidateCacheData _ | .tell .. | .told ..
  | .notModified _ _ | .redirect .. | .persist _ | .persistSlowcheck _ | .controlMaintenance _ => isTrue trivial

instance (cache : Cache P) : DecidablePred (CacheOp.BackedAt cache)
  | .clean env _ | .persist env => inferInstanceAs (Decidable
    (∀ object ∈ cache.cachedObjects, ¬ object.Bare cache.params env.now))
  | .refused purge _ err => inferInstanceAs (Decidable
    (err = .nomem → ∀ object ∈ cache.cachedObjects, ¬ object.Bare cache.params purge.now))
  | .message env purge id _ => inferInstanceAs (Decidable
    (env.mem = false ∨ env.realloc = none →
      ∀ object ∈ cache.cachedObjects, ¬ object.Bare cache.params purge.now ∧
        (object.id = id → ¬ object.complete.invalidateCache.Bare cache.params purge.now)))
  | .release _ | .clone _ _ | .abort _ _ | .forceStream _ | .invalidateCacheData _ | .tell .. | .told ..
  | .notModified _ _ | .redirect .. | .retrieve .. | .redirected .. | .persistSlowcheck _
  | .controlMaintenance _ => isTrue trivial

def Cache.exec (cache : Cache P) (op : CacheOp P) : CacheOp P × Cache P := (op, cache.act op)

/-- Every operation is allowed where it is done. -/
def Cache.allows (guard : CacheOp P → Cache P → Bool) (cache : Cache P) : List (CacheOp P) → Bool
  | [] => true
  | op :: ops => guard op cache && (cache.act op).allows guard ops

theorem Cache.plays {guard : CacheOp P → Cache P → Bool} {ops : List (CacheOp P)} :
    ∀ {cache : Cache P}, cache.allows guard ops = true →
      System.Plays Cache.exec (cacheSystem P) (fun op cache => guard op cache = true) cache ops := by
  induction ops with
  | nil => exact fun _ => trivial
  | cons op ops ih =>
    intro cache h
    obtain ⟨hop, hops⟩ := Bool.and_eq_true_iff.1 h
    exact ⟨hop, rfl, ih hops⟩

/-- What a cache meets where everything succeeds, at a time. -/
def RetrieveEnv.calm (now : Int) : RetrieveEnv Platform.plain where
  now
  newObject := true
  validatingObject := true
  againObject := true
  etagMem := true
  postMem := true
  fetch := { Env.calm with now }
  fetchMetadata := .calm _ fun _ => 0
  releaseMetadata := .calm _ fun _ => 0
  readMetadata _ := {
    ok := false, sourceLen := 0, sourceAlloc := 0, cache := .zero, headers := [], chain := none }
  fetchData := .calm _ fun _ => 0
  fetchData_ne := by decide
  release := .calm _ fun _ => 0

def CleanEnv.calm (now : Int) : CleanEnv Platform.plain where
  now
  listMem := true
  write _ := { WriteEnv.calm with metadata := some { addr := 6, bytes := [66, 66, 66] } }
  elapsed _ := 10000
  release _ := .calm _ fun _ => 0
  invalidate _ := .calm _ fun _ => 0

def Request.plain : Request where
  forceFetch := false
  streamData := false
  post := false
  redirectCount := 0
  hstsInUse := false

def Params.small : Params where
  limit := 100000
  minimumLifetime := 1800
  minimumBandwidth := 1
  maximumBandwidth := 1000
  timeQuantum := 100
  fetchAttempts := 3
  redirectLimit := 10
  objectSize := 100
  headerSize := 16
  chainSize := 16

/-- The cache with a store in an empty directory. -/
def Cache.empty : Cache Platform.plain := .initial .small emptyStore

theorem Cache.run_of_allows {guard : CacheOp Platform.plain → Cache Platform.plain → Bool}
    {ops : List (CacheOp Platform.plain)} (h : Cache.empty.allows guard ops = true) :
    ∃ ops', (cacheSystem Platform.plain).Run (fun op cache => guard op cache = true) ops'
      (System.play Cache.exec Cache.empty ops).2 := by
  have hstart : (cacheSystem Platform.plain).init Cache.empty :=
    ⟨.small, .calm _ fun _ => 0, 100000, 0, fun _ => none, rfl⟩
  exact ⟨_, (System.Run.start hstart).play (Cache.plays h)⟩

end

/-! ## Candidate counts -/

/-- In every run in which no object that still has a candidate is discarded, the count of each object is
the number of objects that have it for their candidate. -/
theorem Cache.candidateCount_eq {ops : List (CacheOp P)} {cache : Cache P}
    (hr : (cacheSystem P).Run (fun op cache => op.SettledAt cache) ops cache) :
    ∀ object ∈ cache.objects,
      object.candidateCount = cache.objects.countP fun other => other.candidate = some object.id := by
  have hinv : cache.Inv True False [] := by
    refine hr.invariant (I := fun cache => cache.Inv True False []) ?_ ?_
    · rintro cache ⟨params, env, limit, hysteresis, disc, rfl⟩
      exact Cache.initial_inv ..
    · rintro op cache _ hsettled rfl h
      exact h.act op (fun _ => hsettled) False.elim
  intro object hx
  have heq := hinv.counted.eq trivial object hx
  unfold RefCount.refs RefCount.pointing at heq
  rw [count_nil, Nat.add_zero] at heq
  exact heq

/-- A stale object is validated and found not to be modified while it is a candidate twice. -/
theorem Cache.candidateCount_validated : ∃ cache : Cache Platform.plain,
    (∃ object ∈ cache.objects, object.candidateCount = 1 ∧ object.users.length = 2) ∧
    ∀ object ∈ cache.objects,
      object.candidateCount = cache.objects.countP fun other => other.candidate = some object.id := by
  let ops (u : Nsurl.Hashed Platform.plain) : List (CacheOp Platform.plain) :=
    [.retrieve (.calm 1) true u .plain, .message .calm (.calm 1) 0 (.data [65]),
      .message .calm (.calm 1) 0 .finished, .retrieve (.calm 2) true u .plain, .notModified 3 2,
      .clean (.calm 4) false, .retrieve (.calm 5) true u .plain]
  obtain ⟨u, -, hp⟩ := Nsurl.exists_ok_of_any
    (x := Nsurl.Hashed.create Platform.plain (fun _ => 0) (str "http://a/"))
    (p := fun u => Cache.empty.allows (fun op cache => decide (op.SettledAt cache)) (ops u) &&
      decide (∃ object ∈ (System.play Cache.exec Cache.empty (ops u)).2.objects,
        object.candidateCount = 1 ∧ object.users.length = 2))
    (by decide +kernel)
  rw [Bool.and_eq_true, decide_eq_true_eq] at hp
  obtain ⟨ops', hr⟩ := Cache.run_of_allows hp.1
  exact ⟨_, hp.2, Cache.candidateCount_eq (hr.mono fun _ _ h => of_decide_eq_true h)⟩

/-- A validating fetch ends without data: its object is discarded with its candidate, whose count stays. -/
theorem Cache.candidateCount_stuck : ∃ (ops : List (CacheOp Platform.plain)) (cache : Cache Platform.plain),
    (cacheSystem Platform.plain).AnyRun ops cache ∧
    ∃ object ∈ cache.objects, object.candidateCount = 1 ∧
      ∀ other ∈ cache.objects, other.candidate ≠ some object.id := by
  let ops (u : Nsurl.Hashed Platform.plain) : List (CacheOp Platform.plain) :=
    [.retrieve (.calm 1) true u .plain, .message .calm (.calm 1) 0 (.data [65]),
      .message .calm (.calm 1) 0 .finished, .retrieve (.calm 2) true u .plain,
      .message .calm (.calm 2) 2 .finished, .release 3, .clean (.calm 3) false]
  obtain ⟨u, -, hp⟩ := Nsurl.exists_ok_of_any
    (x := Nsurl.Hashed.create Platform.plain (fun _ => 0) (str "http://a/"))
    (p := fun u => Cache.empty.allows (fun _ _ => true) (ops u) &&
      decide (∃ object ∈ (System.play Cache.exec Cache.empty (ops u)).2.objects,
        object.candidateCount = 1 ∧
          ∀ other ∈ (System.play Cache.exec Cache.empty (ops u)).2.objects, other.candidate ≠ some object.id))
    (by decide +kernel)
  rw [Bool.and_eq_true, decide_eq_true_eq] at hp
  obtain ⟨ops', hr⟩ := Cache.run_of_allows hp.1
  exact ⟨_, _, hr.mono fun _ _ _ => trivial, hp.2⟩

/-! ## Destroyed objects -/

/-- In every run in which no object without data is persisted, what is destroyed is on no list, has no
users and is no candidate. -/
theorem Cache.destroyed_unused {ops : List (CacheOp P)} {cache : Cache P}
    (hr : (cacheSystem P).Run (fun op cache => op.BackedAt cache) ops cache) :
    ∀ destroyed ∈ cache.destroyed, destroyed.Unused := by
  have hinv : cache.Inv False True [] := by
    refine hr.invariant (I := fun cache => cache.Inv False True []) ?_ ?_
    · rintro cache ⟨params, env, limit, hysteresis, disc, rfl⟩
      exact Cache.initial_inv ..
    · rintro op cache _ hbacked rfl h
      exact h.act op False.elim fun _ => hbacked
  exact hinv.destroyed trivial

/-- An object is persisted, discarded, and found in the backing store again. -/
theorem Cache.destroyed_persisted : ∃ cache : Cache Platform.plain,
    (cache.destroyed.any fun destroyed => destroyed.object.storeState = .disc) = true ∧
    ∀ destroyed ∈ cache.destroyed, destroyed.Unused := by
  let cacheable : Env := {
    Env.calm with now := 1, httpCode := 200, cacheControl := fun _ cd => { cd with maxAge := 9000 } }
  let ops (u : Nsurl.Hashed Platform.plain) : List (CacheOp Platform.plain) :=
    [.retrieve (.calm 1) true u .plain, .message cacheable (.calm 1) 0 (.header (str "A: b")),
      .message cacheable (.calm 1) 0 (.data [65]), .message cacheable (.calm 1) 0 .finished,
      .persist (.calm 2), .release 1, .clean (.calm 3) true]
  obtain ⟨u, -, hp⟩ := Nsurl.exists_ok_of_any
    (x := Nsurl.Hashed.create Platform.plain (fun _ => 0) (str "http://a/"))
    (p := fun u => Cache.empty.allows (fun op cache => decide (op.BackedAt cache)) (ops u) &&
      (System.play Cache.exec Cache.empty (ops u)).2.destroyed.any fun destroyed =>
        destroyed.object.storeState = .disc)
    (by decide +kernel)
  rw [Bool.and_eq_true] at hp
  obtain ⟨ops', hr⟩ := Cache.run_of_allows hp.1
  exact ⟨_, hp.2, Cache.destroyed_unused (hr.mono fun _ _ h => of_decide_eq_true h)⟩

/-- An object with an empty body is persisted while it is used; when the backing store is shut down, it is
destroyed with its user. -/
theorem Cache.destroyed_used : ∃ (ops : List (CacheOp Platform.plain)) (cache : Cache Platform.plain),
    (cacheSystem Platform.plain).AnyRun ops cache ∧
    ∃ destroyed ∈ cache.destroyed, destroyed.object.users ≠ [] := by
  let cacheable : Env := { Env.calm with
    now := 1, realloc := none, realloc_ne := by decide, cacheControl := fun _ cd => { cd with maxAge := 9000 } }
  let ops (u : Nsurl.Hashed Platform.plain) : List (CacheOp Platform.plain) :=
    [.retrieve (.calm 1) true u .plain, .message cacheable (.calm 1) 0 (.header (str "A: b")),
      .message cacheable (.calm 1) 0 .finished, .persist (.calm 2), .persistSlowcheck (.calm _ fun _ => 0),
      .retrieve (.calm 3) true u .plain]
  obtain ⟨u, -, hp⟩ := Nsurl.exists_ok_of_any
    (x := Nsurl.Hashed.create Platform.plain (fun _ => 0) (str "http://a/"))
    (p := fun u => Cache.empty.allows (fun _ _ => true) (ops u) &&
      decide (∃ destroyed ∈ (System.play Cache.exec Cache.empty (ops u)).2.destroyed,
        destroyed.object.users ≠ []))
    (by decide +kernel)
  rw [Bool.and_eq_true, decide_eq_true_eq] at hp
  obtain ⟨ops', hr⟩ := Cache.run_of_allows hp.1
  exact ⟨_, _, hr.mono fun _ _ _ => trivial, hp.2⟩

end Nami.Llcache
