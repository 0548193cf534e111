import Mathlib.Logic.Relation
import HarborBridge.Lib.GoStrings
import HarborBridge.Lib.Rfc3339

/-!
# The cached signing keys

Package dataplane, oidc_keyset.go: any number of goroutines share one `cachedKeySet`. What a
goroutine does between taking and releasing the mutex is one step; so are the end of a wait
and the closing of a fetch's channel. Everything else a goroutine does is local to it. A call
starts with its first look at the cache: parsing the token before touches nothing shared.
-/

namespace HarborBridge.KeySet

open GoStrings Rfc3339

def jwksMinRefresh : Int := 30 * second

def jwksMaxAge : Int := 10 * minute

def jwksFetchTimeout : Int := 10 * second

def maxJWKSSize : Nat := 2 ^ 20

/-- A key of the key set: its id, whether it is a public key, and the key itself. -/
structure JSONWebKey (M : Type) where
  KeyID : GoString
  IsPublic : Bool
  Key : M

/-- A parsed token: the key ids its signatures' headers name, and what `Verify` gives for
a key. -/
structure JSONWebSignature (M P : Type) where
  Signatures : List GoString
  Verify : JSONWebKey M → Option P

/-! ## One fetch -/

/-- What comes back for the request: no request could be built, none was answered, or a
reply with its status, the length of the body read (none when reading failed) and the keys
the body decodes to. -/
inductive JwksReply (M : Type) where
  | unbuilt
  | unanswered
  | reply (status : Nat) (size : Option Nat) (decoded : Option (List (JSONWebKey M)))

/-- Why a fetch failed, one constructor for each message of `fetch`. -/
inductive FetchError where
  | build
  | fetch
  | status (code : Nat)
  | read
  | larger
  | decode
  | noPublicKey (keys : Nat)
  deriving DecidableEq

variable {M P : Type}

def fetch : JwksReply M → Except FetchError (List (JSONWebKey M))
  | .unbuilt => .error .build
  | .unanswered => .error .fetch
  | .reply status size decoded =>
    if status ≠ 200 then .error (.status status)
    else match size with
      | none => .error .read
      | some n =>
        if maxJWKSSize < n then .error .larger
        else match decoded with
          | none => .error .decode
          | some keys =>
            if keys.any (·.IsPublic) then .ok keys else .error (.noPublicKey keys.length)

theorem fetch_public {reply : JwksReply M} {keys : List (JSONWebKey M)}
    (h : fetch reply = .ok keys) : ∃ key ∈ keys, key.IsPublic = true := by
  unfold fetch at h
  split at h
  · cases h
  · cases h
  · split_ifs at h
    split at h
    · cases h
    · split_ifs at h
      split at h
      · cases h
      · split_ifs at h with hpublic
        cases h
        exact List.any_eq_true.mp hpublic

/-! ## The key set -/

/-- What a fetch left when it ended: the time, what it fetched, and the keys and error its
waiters get. -/
structure Ended (M : Type) where
  time : Int
  fetched : Except FetchError (List (JSONWebKey M))
  keys : List (JSONWebKey M)
  err : Option FetchError

/-- `keyFetch`, with its start; `closed` once the channel is. -/
structure KeyFetch (M : Type) where
  startedAt : Int
  ended : Option (Ended M)
  closed : Bool

/-- `cachedKeySet`: the fields under the mutex. `inflight` is the number of the running
fetch, and a zero time is none. -/
structure CachedKeySet (M : Type) where
  keys : List (JSONWebKey M)
  fetchedAt : Option Int
  doneAt : Option Int
  lastErr : Option FetchError
  inflight : Option Nat

/-- Why the keys after a refresh may be out of date. -/
inductive RefreshError where
  | fetch (e : FetchError)
  | lastFetch (e : FetchError)
  | waiting
  deriving DecidableEq

/-- What a call answers. `unavailable` is the failure that marks the keys unavailable, and
`primed` is `prime`'s. -/
inductive Outcome (P : Type) where
  | accepted (payload : P)
  | malformed
  | signatures
  | unverified
  | unavailable (e : RefreshError)
  | primed (e : Option RefreshError)

/-- Where a call stands: before the lock of `refreshedKeys`, waiting for a fetch, or
returned, with the keys it had after the refresh. -/
inductive Phase (M P : Type) where
  | refreshing
  | waiting (fetch : Nat)
  | returned (refreshed : List (JSONWebKey M)) (outcome : Outcome P)

/-- A call of `VerifySignature` with its parsed token, or of `prime` (no token); `ctxDone`
once its context has ended. -/
structure Call (M P : Type) where
  begunAt : Int
  token : Option (JSONWebSignature M P)
  cached : List (JSONWebKey M)
  phase : Phase M P
  ctxDone : Bool

/-- The key set, every fetch and every call so far, each in the order of its start, and the
time. -/
structure World (M P : Type) where
  clock : Int
  set : CachedKeySet M
  fetches : List (KeyFetch M)
  calls : List (Call M P)

def holdsKey (keys : List (JSONWebKey M)) (keyID : GoString) : Bool :=
  !keyID.isEmpty && keys.any (fun key => decide (key.KeyID = keyID))

def verifyWith (jws : JSONWebSignature M P) (keys : List (JSONWebKey M)) (keyID : GoString) :
    Option P :=
  keys.findSome? fun key =>
    if !keyID.isEmpty && decide (key.KeyID ≠ keyID) then none else jws.Verify key

namespace CachedKeySet

def mayFetchLocked (k : CachedKeySet M) (now : Int) : Bool :=
  k.inflight.isNone &&
    match k.doneAt with
    | none => true
    | some done => decide (jwksMinRefresh ≤ timeSub now done)

def stale (k : CachedKeySet M) (now : Int) : Bool :=
  match k.fetchedAt with
  | none => true
  | some fetched => decide (jwksMaxAge < timeSub now fetched)

end CachedKeySet

namespace World

/-- The new fetch takes the next number. -/
def startFetchLocked (w : World M P) : World M P :=
  { w with
    set := { w.set with inflight := some w.fetches.length }
    fetches := w.fetches ++ [{ startedAt := w.clock, ended := none, closed := false }] }

/-- The keys returned are `w.set.keys`, which starting a fetch leaves as they are. -/
def cachedKeys (w : World M P) : World M P :=
  if w.set.stale w.clock && w.set.mayFetchLocked w.clock then w.startFetchLocked else w

/-- What `VerifySignature` answers once it has the keys of the refresh. -/
def verdict (jws : JSONWebSignature M P) (keyID : GoString) (cached keys : List (JSONWebKey M))
    (refreshErr : Option RefreshError) : Outcome P :=
  match verifyWith jws keys keyID with
  | some payload => .accepted payload
  | none =>
    match refreshErr with
    | some e => if !holdsKey cached keyID && !holdsKey keys keyID then .unavailable e else .unverified
    | none => .unverified

def answer (call : Call M P) (keys : List (JSONWebKey M)) (refreshErr : Option RefreshError) :
    Outcome P :=
  match call.token with
  | none => .primed refreshErr
  | some jws => verdict jws (jws.Signatures.headD []) call.cached keys refreshErr

def push (w : World M P) (call : Call M P) : World M P :=
  { w with calls := w.calls ++ [call] }

def put (w : World M P) (i : Nat) (call : Call M P) : World M P :=
  { w with calls := w.calls.set i call }

/-- `VerifySignature` up to the refresh; `parsed` is what `ParseSigned` gives for the token. -/
def verifySignature (w : World M P) (parsed : Option (JSONWebSignature M P)) : World M P :=
  match parsed with
  | none => w.push
      { begunAt := w.clock, token := none, cached := [], phase := .returned [] .malformed,
        ctxDone := false }
  | some jws =>
    match jws.Signatures with
    | [keyID] =>
      w.cachedKeys.push
        { begunAt := w.clock
          token := some jws
          cached := w.set.keys
          phase :=
            match verifyWith jws w.set.keys keyID with
            | some payload => .returned [] (.accepted payload)
            | none => .refreshing
          ctxDone := false }
    | _ => w.push
        { begunAt := w.clock, token := some jws, cached := [], phase := .returned [] .signatures,
          ctxDone := false }

def prime (w : World M P) : World M P :=
  w.push { begunAt := w.clock, token := none, cached := [], phase := .refreshing, ctxDone := false }

/-- The locked part of `refreshedKeys`: wait for the running fetch or a new one, or answer
with the keys at hand. -/
def refreshedKeys (w : World M P) (i : Nat) (call : Call M P) : World M P :=
  match w.set.inflight with
  | some f => w.put i { call with phase := .waiting f }
  | none =>
    if w.set.mayFetchLocked w.clock then
      w.startFetchLocked.put i { call with phase := .waiting w.fetches.length }
    else
      w.put i { call with
        phase := .returned w.set.keys
          (answer call w.set.keys (w.set.lastErr.map RefreshError.lastFetch)) }

def received (w : World M P) (i : Nat) (call : Call M P) (keys : List (JSONWebKey M))
    (err : Option RefreshError) : World M P :=
  w.put i { call with phase := .returned keys (answer call keys err) }

/-- What the set holds after a fetch ended with this result. -/
def setAfter (w : World M P) (fetched : Except FetchError (List (JSONWebKey M))) :
    CachedKeySet M :=
  match fetched with
  | .ok keys =>
    { keys := keys, fetchedAt := some w.clock, doneAt := some w.clock, lastErr := none,
      inflight := none }
  | .error e => { w.set with doneAt := some w.clock, lastErr := some e, inflight := none }

/-- The locked part of `runFetch`. -/
def runFetch (w : World M P) (f : Nat) (running : KeyFetch M)
    (fetched : Except FetchError (List (JSONWebKey M))) : World M P :=
  { w with
    set := w.setAfter fetched
    fetches := w.fetches.set f { running with
      ended := some
        { time := w.clock
          fetched := fetched
          keys := (w.setAfter fetched).keys
          err := (w.setAfter fetched).lastErr } } }

def close (w : World M P) (f : Nat) (ended : KeyFetch M) : World M P :=
  { w with fetches := w.fetches.set f { ended with closed := true } }

def start (clock : Int) : World M P :=
  { clock := clock
    set := { keys := [], fetchedAt := none, doneAt := none, lastErr := none, inflight := none }
    fetches := []
    calls := [] }

end World

open World

/-- One step of one goroutine, of the clock, or of a request's context. A waiting call goes on
once the channel of its fetch is closed, or once its context has ended. -/
inductive Step : World M P → World M P → Prop
  | tick (w : World M P) (now : Int) (h : w.clock ≤ now) : Step w { w with clock := now }
  | verifySignature (w : World M P) (parsed : Option (JSONWebSignature M P)) :
      Step w (w.verifySignature parsed)
  | prime (w : World M P) : Step w w.prime
  | refresh (w : World M P) (i : Nat) (call : Call M P) (hcall : w.calls[i]? = some call)
      (hphase : call.phase = .refreshing) : Step w (w.refreshedKeys i call)
  | receive (w : World M P) (i : Nat) (call : Call M P) (hcall : w.calls[i]? = some call)
      (f : Nat) (hphase : call.phase = .waiting f) (fetch : KeyFetch M)
      (hfetch : w.fetches[f]? = some fetch) (hclosed : fetch.closed = true) (ended : Ended M)
      (hended : fetch.ended = some ended) :
      Step w (w.received i call ended.keys (ended.err.map RefreshError.fetch))
  | contextEnds (w : World M P) (i : Nat) (call : Call M P) (hcall : w.calls[i]? = some call) :
      Step w (w.put i { call with ctxDone := true })
  | cancel (w : World M P) (i : Nat) (call : Call M P) (hcall : w.calls[i]? = some call)
      (f : Nat) (hphase : call.phase = .waiting f) (hctx : call.ctxDone = true) :
      Step w (w.received i call [] (some .waiting))
  | runFetch (w : World M P) (f : Nat) (running : KeyFetch M)
      (hfetch : w.fetches[f]? = some running) (hrunning : running.ended = none)
      (reply : JwksReply M) : Step w (w.runFetch f running (KeySet.fetch reply))
  | close (w : World M P) (f : Nat) (done : KeyFetch M) (hfetch : w.fetches[f]? = some done)
      (ended : Ended M) (hended : done.ended = some ended) : Step w (w.close f done)

abbrev Runs : World M P → World M P → Prop := Relation.ReflTransGen Step

/-! ## What a step does to the set and the fetches -/

theorem le_timeSub_iff {now since : Int} {d : Int} (hd : 0 < d) (hmax : d < 2 ^ 63) :
    d ≤ timeSub now since ↔ since + d ≤ now := by
  unfold timeSub
  omega

/-- A fetch starts only when none runs and the last one ended long enough ago. -/
theorem CachedKeySet.mayFetchLocked_iff (k : CachedKeySet M) (now : Int) :
    k.mayFetchLocked now = true ↔
      k.inflight = none ∧ ∀ done, k.doneAt = some done → done + jwksMinRefresh ≤ now := by
  have hiff (done : Int) : jwksMinRefresh ≤ timeSub now done ↔ done + jwksMinRefresh ≤ now :=
    le_timeSub_iff (by decide) (by decide)
  unfold mayFetchLocked
  cases k.doneAt with
  | none => simp
  | some done => simp [hiff]

/-- All a step can do to the set and the fetches: nothing (the time may pass), start a fetch,
end the running one, or close the channel of an ended one. -/
inductive Effect (w w' : World M P) : Prop
  | idle (hset : w'.set = w.set) (hfetches : w'.fetches = w.fetches)
      (hclock : w.clock ≤ w'.clock)
  | started (hmay : w.set.mayFetchLocked w.clock = true)
      (hset : w'.set = w.startFetchLocked.set)
      (hfetches : w'.fetches = w.startFetchLocked.fetches) (hclock : w'.clock = w.clock)
  | ended (f : Nat) (running : KeyFetch M) (hfetch : w.fetches[f]? = some running)
      (hrunning : running.ended = none) (reply : JwksReply M)
      (hw : w' = w.runFetch f running (fetch reply))
  | closed (f : Nat) (done : KeyFetch M) (hfetch : w.fetches[f]? = some done) (ended : Ended M)
      (hended : done.ended = some ended) (hw : w' = w.close f done)

theorem effect_cachedKeys (w : World M P) (call : Call M P) :
    Effect w (w.cachedKeys.push call) := by
  by_cases h : (w.set.stale w.clock && w.set.mayFetchLocked w.clock) = true
  · have hw : w.cachedKeys = w.startFetchLocked := if_pos h
    rw [hw]
    exact .started (Bool.and_eq_true_iff.mp h).2 rfl rfl rfl
  · have hw : w.cachedKeys = w := if_neg h
    rw [hw]
    exact .idle rfl rfl le_rfl

theorem effect_verifySignature (w : World M P) (parsed : Option (JSONWebSignature M P)) :
    Effect w (w.verifySignature parsed) := by
  unfold World.verifySignature
  split
  · exact .idle rfl rfl le_rfl
  · split
    · exact effect_cachedKeys w _
    · exact .idle rfl rfl le_rfl

theorem effect_refreshedKeys (w : World M P) (i : Nat) (call : Call M P) :
    Effect w (w.refreshedKeys i call) := by
  unfold refreshedKeys
  split
  · exact .idle rfl rfl le_rfl
  · split_ifs with hmay
    · exact .started hmay rfl rfl rfl
    · exact .idle rfl rfl le_rfl

theorem Step.effect {w w' : World M P} (h : Step w w') : Effect w w' := by
  cases h with
  | tick now hle => exact .idle rfl rfl hle
  | verifySignature parsed => exact effect_verifySignature w parsed
  | prime => exact .idle rfl rfl le_rfl
  | refresh i call hcall hphase => exact effect_refreshedKeys w i call
  | receive i call hcall f hphase fetch hfetch hclosed ended hended =>
    exact .idle rfl rfl le_rfl
  | contextEnds i call hcall => exact .idle rfl rfl le_rfl
  | cancel i call hcall f hphase hctx => exact .idle rfl rfl le_rfl
  | runFetch f running hfetch hrunning reply => exact .ended f running hfetch hrunning reply rfl
  | close f done hfetch ended hended => exact .closed f done hfetch ended hended rfl

/-! ## The order of the fetches -/

def EndedAs (w : World M P) (f : Nat) (e : Ended M) : Prop :=
  ∃ fetch, w.fetches[f]? = some fetch ∧ fetch.ended = some e

def Running (w : World M P) (f : Nat) : Prop :=
  ∃ fetch, w.fetches[f]? = some fetch ∧ fetch.ended = none

def StartedAt (w : World M P) (f : Nat) (t : Int) : Prop :=
  ∃ fetch, w.fetches[f]? = some fetch ∧ fetch.startedAt = t

/-- What holds in every reachable state: the running fetch is the one in flight, fetches are
apart, and the set holds what the last of them left. -/
structure Orderly (w : World M P) : Prop where
  inflight : ∀ f, w.set.inflight = some f ↔ Running w f
  doneAt_le : ∀ done, w.set.doneAt = some done → done ≤ w.clock
  ended_le : ∀ f e, EndedAs w f e → ∃ done, w.set.doneAt = some done ∧ e.time ≤ done
  last : ∀ done, w.set.doneAt = some done →
    ∃ f e, EndedAs w f e ∧ e.time = done ∧ e.keys = w.set.keys ∧ e.err = w.set.lastErr
  spaced : ∀ f g t, f < g → StartedAt w g t →
    ∃ e, EndedAs w f e ∧ e.time + jwksMinRefresh ≤ t
  keys_of_ok : ∀ f e keys, EndedAs w f e → e.fetched = .ok keys → e.keys = keys ∧ e.err = none
  public_of_ok : ∀ f e keys, EndedAs w f e → e.fetched = .ok keys →
    ∃ key ∈ w.set.keys, key.IsPublic = true

theorem Orderly.start (clock : Int) : Orderly (World.start clock : World M P) where
  inflight f := by
    constructor
    · intro h
      cases h
    · rintro ⟨fetch, hfetch, -⟩
      cases hfetch
  doneAt_le done h := by cases h
  ended_le f e h := by
    obtain ⟨fetch, hfetch, -⟩ := h
    cases hfetch
  last done h := by cases h
  spaced f g t hlt h := by
    obtain ⟨fetch, hfetch, -⟩ := h
    cases hfetch
  keys_of_ok f e keys h := by
    obtain ⟨fetch, hfetch, -⟩ := h
    cases hfetch
  public_of_ok f e keys h := by
    obtain ⟨fetch, hfetch, -⟩ := h
    cases hfetch

theorem endedAs_of_not_running {w : World M P} {f : Nat} (hlt : f < w.fetches.length)
    (h : ¬ Running w f) : ∃ e, EndedAs w f e := by
  have hfetch := List.getElem?_eq_getElem hlt
  cases hended : (w.fetches.get ⟨f, hlt⟩).ended with
  | none => exact absurd ⟨_, hfetch, hended⟩ h
  | some e => exact ⟨e, _, hfetch, hended⟩

section Steps

variable {w w' : World M P}

/-- A step that leaves the set and what can be told of the fetches. -/
theorem Orderly.same (ho : Orderly w) (hset : w'.set = w.set) (hclock : w.clock ≤ w'.clock)
    (hrunning : ∀ f, Running w' f ↔ Running w f) (hended : ∀ f e, EndedAs w' f e ↔ EndedAs w f e)
    (hstarted : ∀ f t, StartedAt w' f t → StartedAt w f t) : Orderly w' where
  inflight f := by
    rw [hset, hrunning]
    exact ho.inflight f
  doneAt_le done h := by
    rw [hset] at h
    exact (ho.doneAt_le done h).trans hclock
  ended_le f e h := by
    rw [hset]
    exact ho.ended_le f e ((hended f e).mp h)
  last done h := by
    rw [hset] at h ⊢
    obtain ⟨f, e, he, hrest⟩ := ho.last done h
    exact ⟨f, e, (hended f e).mpr he, hrest⟩
  spaced f g t hlt h := by
    obtain ⟨e, he, hle⟩ := ho.spaced f g t hlt (hstarted g t h)
    exact ⟨e, (hended f e).mpr he, hle⟩
  keys_of_ok f e keys h := ho.keys_of_ok f e keys ((hended f e).mp h)
  public_of_ok f e keys h := by
    rw [hset]
    exact ho.public_of_ok f e keys ((hended f e).mp h)

theorem Orderly.idle (ho : Orderly w) (hset : w'.set = w.set) (hfetches : w'.fetches = w.fetches)
    (hclock : w.clock ≤ w'.clock) : Orderly w' := by
  apply ho.same hset hclock
  · intro f
    rw [Running, hfetches, Running]
  · intro f e
    rw [EndedAs, hfetches, EndedAs]
  · intro f t h
    rwa [StartedAt, hfetches] at h

/-! ### A fetch starts -/

theorem started_fetch (h : w'.fetches = w.startFetchLocked.fetches) {f : Nat} {fetch : KeyFetch M} :
    w'.fetches[f]? = some fetch ↔ w.fetches[f]? = some fetch ∨
      f = w.fetches.length ∧ fetch = { startedAt := w.clock, ended := none, closed := false } := by
  rw [h]
  simp only [startFetchLocked]
  rcases lt_trichotomy f w.fetches.length with hlt | heq | hgt
  · rw [List.getElem?_append_left hlt]
    simp [hlt.ne]
  · subst heq
    simp [eq_comm]
  · rw [List.getElem?_eq_none (by simp; omega), List.getElem?_eq_none hgt.le]
    simp [hgt.ne']

theorem started_endedAs (h : w'.fetches = w.startFetchLocked.fetches) (f : Nat) (e : Ended M) :
    EndedAs w' f e ↔ EndedAs w f e := by
  constructor
  · rintro ⟨fetch, hfetch, hended⟩
    rcases (started_fetch h).mp hfetch with hold | ⟨-, rfl⟩
    · exact ⟨fetch, hold, hended⟩
    · cases hended
  · rintro ⟨fetch, hfetch, hended⟩
    exact ⟨fetch, (started_fetch h).mpr (.inl hfetch), hended⟩

theorem Orderly.started (ho : Orderly w) (hmay : w.set.mayFetchLocked w.clock = true)
    (hset : w'.set = w.startFetchLocked.set) (hfetches : w'.fetches = w.startFetchLocked.fetches)
    (hclock : w'.clock = w.clock) : Orderly w' := by
  obtain ⟨hnone, hapart⟩ := (w.set.mayFetchLocked_iff w.clock).mp hmay
  have hidle (f : Nat) : ¬ Running w f := by
    intro hrunning
    rw [← ho.inflight, hnone] at hrunning
    cases hrunning
  refine
    { inflight := ?_, doneAt_le := ?_, ended_le := ?_, last := ?_, spaced := ?_, keys_of_ok := ?_,
      public_of_ok := ?_ }
  · intro f
    rw [hset]
    constructor
    · intro h
      cases h
      exact ⟨_, (started_fetch hfetches).mpr (.inr ⟨rfl, rfl⟩), rfl⟩
    · rintro ⟨fetch, hfetch, hended⟩
      rcases (started_fetch hfetches).mp hfetch with hold | ⟨rfl, -⟩
      · exact absurd ⟨fetch, hold, hended⟩ (hidle f)
      · rfl
  · intro done h
    rw [hset] at h
    rw [hclock]
    exact ho.doneAt_le done h
  · intro f e h
    rw [hset]
    exact ho.ended_le f e ((started_endedAs hfetches f e).mp h)
  · intro done h
    rw [hset] at h ⊢
    obtain ⟨f, e, he, hrest⟩ := ho.last done h
    exact ⟨f, e, (started_endedAs hfetches f e).mpr he, hrest⟩
  · rintro f g t hlt ⟨fetch, hfetch, hstart⟩
    rcases (started_fetch hfetches).mp hfetch with hold | ⟨rfl, rfl⟩
    · obtain ⟨e, he, hle⟩ := ho.spaced f g t hlt ⟨fetch, hold, hstart⟩
      exact ⟨e, (started_endedAs hfetches f e).mpr he, hle⟩
    · -- all fetches so far have ended, none later than the set says
      obtain ⟨e, he⟩ := endedAs_of_not_running hlt (hidle f)
      obtain ⟨done, hdone, hle⟩ := ho.ended_le f e he
      have hfar := hapart done hdone
      refine ⟨e, (started_endedAs hfetches f e).mpr he, ?_⟩
      have hstart' : w.clock = t := hstart
      omega
  · intro f e keys h
    exact ho.keys_of_ok f e keys ((started_endedAs hfetches f e).mp h)
  · intro f e keys h
    rw [hset]
    exact ho.public_of_ok f e keys ((started_endedAs hfetches f e).mp h)

/-! ### A fetch ends -/

theorem set_fetch {f : Nat} {old new : KeyFetch M} (hold : w.fetches[f]? = some old)
    (h : w'.fetches = w.fetches.set f new) {g : Nat} {fetch : KeyFetch M} :
    w'.fetches[g]? = some fetch ↔
      g = f ∧ fetch = new ∨ g ≠ f ∧ w.fetches[g]? = some fetch := by
  have hlt := (List.getElem?_eq_some_iff.mp hold).1
  rw [h]
  by_cases hgf : g = f
  · subst hgf
    simp [List.getElem?_set_self hlt, eq_comm]
  · simp [List.getElem?_set_ne (Ne.symm hgf), hgf]

def endOf (w : World M P) (fetched : Except FetchError (List (JSONWebKey M))) : Ended M :=
  { time := w.clock
    fetched := fetched
    keys := (w.setAfter fetched).keys
    err := (w.setAfter fetched).lastErr }

variable {f : Nat} {running : KeyFetch M} {fetched : Except FetchError (List (JSONWebKey M))}

theorem runFetch_endedAs (hfetch : w.fetches[f]? = some running) (hrunning : running.ended = none)
    (g : Nat) (e : Ended M) :
    EndedAs (w.runFetch f running fetched) g e ↔ g = f ∧ e = endOf w fetched ∨ EndedAs w g e := by
  constructor
  · rintro ⟨fetch, hg, hended⟩
    rcases (set_fetch hfetch rfl).mp hg with ⟨rfl, rfl⟩ | ⟨-, hold⟩
    · cases hended
      exact .inl ⟨rfl, rfl⟩
    · exact .inr ⟨fetch, hold, hended⟩
  · rintro (⟨rfl, rfl⟩ | ⟨fetch, hg, hended⟩)
    · exact ⟨_, (set_fetch hfetch rfl).mpr (.inl ⟨rfl, rfl⟩), rfl⟩
    · refine ⟨fetch, (set_fetch hfetch rfl).mpr (.inr ⟨?_, hg⟩), hended⟩
      rintro rfl
      rw [hfetch] at hg
      cases hg
      rw [hrunning] at hended
      cases hended

theorem runFetch_running (hfetch : w.fetches[f]? = some running) (g : Nat) :
    Running (w.runFetch f running fetched) g ↔ g ≠ f ∧ Running w g := by
  constructor
  · rintro ⟨fetch, hg, hended⟩
    rcases (set_fetch hfetch rfl).mp hg with ⟨rfl, rfl⟩ | ⟨hne, hold⟩
    · cases hended
    · exact ⟨hne, fetch, hold, hended⟩
  · rintro ⟨hne, fetch, hg, hended⟩
    exact ⟨fetch, (set_fetch hfetch rfl).mpr (.inr ⟨hne, hg⟩), hended⟩

theorem set_startedAt {new : KeyFetch M} (hold : w.fetches[f]? = some running)
    (h : w'.fetches = w.fetches.set f new) (hnew : new.startedAt = running.startedAt) (g : Nat)
    (t : Int) : StartedAt w' g t ↔ StartedAt w g t := by
  constructor
  · rintro ⟨fetch, hg, ht⟩
    rcases (set_fetch hold h).mp hg with ⟨rfl, rfl⟩ | ⟨-, hsame⟩
    · exact ⟨running, hold, hnew ▸ ht⟩
    · exact ⟨fetch, hsame, ht⟩
  · rintro ⟨fetch, hg, ht⟩
    by_cases hgf : g = f
    · subst hgf
      rw [hold] at hg
      cases hg
      exact ⟨new, (set_fetch hold h).mpr (.inl ⟨rfl, rfl⟩), hnew.trans ht⟩
    · exact ⟨fetch, (set_fetch hold h).mpr (.inr ⟨hgf, hg⟩), ht⟩

theorem setAfter_inflight : (w.setAfter fetched).inflight = none := by
  cases fetched <;> rfl

theorem setAfter_doneAt : (w.setAfter fetched).doneAt = some w.clock := by
  cases fetched <;> rfl

theorem Orderly.ended (ho : Orderly w) (hfetch : w.fetches[f]? = some running)
    (hrunning : running.ended = none) (reply : JwksReply M) :
    Orderly (w.runFetch f running (fetch reply)) := by
  have hiff (g : Nat) (e : Ended M) :
      EndedAs (w.runFetch f running (fetch reply)) g e ↔
        g = f ∧ e = endOf w (fetch reply) ∨ EndedAs w g e :=
    runFetch_endedAs hfetch hrunning g e
  have hfetches : (w.runFetch f running (fetch reply)).fetches =
      w.fetches.set f { running with ended := some (endOf w (fetch reply)) } := rfl
  have hflight : w.set.inflight = some f := (ho.inflight f).mpr ⟨running, hfetch, hrunning⟩
  refine
    { inflight := ?_, doneAt_le := ?_, ended_le := ?_, last := ?_, spaced := ?_, keys_of_ok := ?_,
      public_of_ok := ?_ }
  · intro g
    rw [runFetch_running hfetch]
    constructor
    · intro h
      rw [show (w.runFetch f running (fetch reply)).set.inflight = none from setAfter_inflight] at h
      cases h
    · rintro ⟨hne, hg⟩
      rw [← ho.inflight, hflight] at hg
      exact absurd (Option.some.inj hg).symm hne
  · intro done h
    rw [show (w.runFetch f running (fetch reply)).set.doneAt = some w.clock from setAfter_doneAt] at h
    cases h
    exact le_refl w.clock
  · intro g e h
    refine ⟨w.clock, setAfter_doneAt, ?_⟩
    rcases (hiff g e).mp h with ⟨-, rfl⟩ | hold
    · exact le_refl w.clock
    · obtain ⟨done, hdone, hle⟩ := ho.ended_le g e hold
      exact hle.trans (ho.doneAt_le done hdone)
  · intro done h
    rw [show (w.runFetch f running (fetch reply)).set.doneAt = some w.clock from setAfter_doneAt] at h
    cases h
    exact ⟨f, endOf w (fetch reply), (hiff f _).mpr (.inl ⟨rfl, rfl⟩), rfl, rfl, rfl⟩
  · intro g g' t hlt h
    obtain ⟨e, he, hle⟩ := ho.spaced g g' t hlt ((set_startedAt hfetch hfetches rfl g' t).mp h)
    exact ⟨e, (hiff g e).mpr (.inr he), hle⟩
  · intro g e keys h hok
    rcases (hiff g e).mp h with ⟨-, rfl⟩ | hold
    · have hok' : fetch reply = .ok keys := hok
      simp [endOf, setAfter, hok']
    · exact ho.keys_of_ok g e keys hold hok
  · intro g e keys h hok
    cases hresult : fetch reply with
    | ok new => exact fetch_public hresult
    | error er =>
      -- the keys stay, and it was an earlier fetch that succeeded
      rcases (hiff g e).mp h with ⟨-, rfl⟩ | hold
      · have hok' : fetch reply = .ok keys := hok
        rw [hresult] at hok'
        cases hok'
      · exact ho.public_of_ok g e keys hold hok

theorem close_ended (hfetch : w.fetches[f]? = some running) (g : Nat) (o : Option (Ended M)) :
    (∃ fetch, (w.close f running).fetches[g]? = some fetch ∧ fetch.ended = o) ↔
      ∃ fetch, w.fetches[g]? = some fetch ∧ fetch.ended = o := by
  have hfetches : (w.close f running).fetches = w.fetches.set f { running with closed := true } := rfl
  constructor
  · rintro ⟨fetch, hg, ho⟩
    rcases (set_fetch hfetch hfetches).mp hg with ⟨rfl, rfl⟩ | ⟨-, hold⟩
    · exact ⟨running, hfetch, ho⟩
    · exact ⟨fetch, hold, ho⟩
  · rintro ⟨fetch, hg, ho⟩
    by_cases hgf : g = f
    · subst hgf
      rw [hfetch] at hg
      cases hg
      exact ⟨_, (set_fetch hfetch hfetches).mpr (.inl ⟨rfl, rfl⟩), ho⟩
    · exact ⟨fetch, (set_fetch hfetch hfetches).mpr (.inr ⟨hgf, hg⟩), ho⟩

theorem Orderly.closed (ho : Orderly w) (hfetch : w.fetches[f]? = some running) :
    Orderly (w.close f running) := by
  have hset : (w.close f running).set = w.set := rfl
  have hfetches : (w.close f running).fetches = w.fetches.set f { running with closed := true } := rfl
  exact ho.same hset (le_refl w.clock) (fun g => close_ended hfetch g none)
    (fun g e => close_ended hfetch g (some e)) (fun g t => (set_startedAt hfetch hfetches rfl g t).mp)

end Steps

theorem Orderly.step {w w' : World M P} (ho : Orderly w) (h : Step w w') : Orderly w' := by
  cases h.effect with
  | idle hset hfetches hclock => exact ho.idle hset hfetches hclock
  | started hmay hset hfetches hclock => exact ho.started hmay hset hfetches hclock
  | ended f running hfetch hrunning reply hw => exact hw ▸ ho.ended hfetch hrunning reply
  | closed f done hfetch ended hended hw => exact hw ▸ ho.closed hfetch

theorem Runs.orderly {w w' : World M P} (h : Runs w w') (ho : Orderly w) : Orderly w' := by
  induction h with
  | refl => exact ho
  | tail _ hstep ih => exact ih.step hstep

/-! ## What a step does to a call -/

/-- All a step can do to a call: nothing but end its context, take it from the refresh to a
wait or to an answer with the keys at hand, or end its wait. -/
inductive CallEffect (w w' : World M P) (call : Call M P) : Call M P → Prop
  | same (ctxDone : Bool) (hctx : call.ctxDone = true → ctxDone = true) :
      CallEffect w w' call { call with ctxDone := ctxDone }
  | joined (f : Nat) (hphase : call.phase = .refreshing) (hflight : w.set.inflight = some f) :
      CallEffect w w' call { call with phase := .waiting f }
  | fetching (hphase : call.phase = .refreshing)
      (hfetches : w'.fetches = w.startFetchLocked.fetches) :
      CallEffect w w' call { call with phase := .waiting w.fetches.length }
  | limited (hphase : call.phase = .refreshing) (hflight : w.set.inflight = none)
      (hmay : ¬ w.set.mayFetchLocked w.clock = true) :
      CallEffect w w' call { call with
        phase := .returned w.set.keys
          (answer call w.set.keys (w.set.lastErr.map RefreshError.lastFetch)) }
  | received (f : Nat) (hphase : call.phase = .waiting f) (e : Ended M) (hended : EndedAs w f e) :
      CallEffect w w' call { call with
        phase := .returned e.keys (answer call e.keys (e.err.map RefreshError.fetch)) }
  | cancelled (f : Nat) (hphase : call.phase = .waiting f) (hctx : call.ctxDone = true) :
      CallEffect w w' call { call with
        phase := .returned [] (answer call [] (some .waiting)) }

theorem CallEffect.refl (w w' : World M P) (call : Call M P) : CallEffect w w' call call :=
  .same call.ctxDone id

theorem CallEffect.kept {w w' : World M P} {call call' : Call M P}
    (h : CallEffect w w' call call') :
    call'.begunAt = call.begunAt ∧ call'.token = call.token ∧ call'.cached = call.cached ∧
      (call.ctxDone = true → call'.ctxDone = true) := by
  cases h with
  | same ctxDone hctx => exact ⟨rfl, rfl, rfl, hctx⟩
  | joined | fetching | limited | received | cancelled => exact ⟨rfl, rfl, rfl, id⟩

theorem CallEffect.returned {w w' : World M P} {call call' : Call M P}
    (h : CallEffect w w' call call')
    {keys : List (JSONWebKey M)} {o : Outcome P} (hphase : call.phase = .returned keys o) :
    call'.phase = .returned keys o := by
  cases h with
  | same ctxDone hctx => exact hphase
  | joined f hp | fetching hp | limited hp | received f hp | cancelled f hp =>
    rw [hphase] at hp
    cases hp

section Calls

variable {w w' : World M P} {i j : Nat} {call moved moved' : Call M P}

theorem push_call (hcall : w.calls[i]? = some call) (new : Call M P) :
    (w.push new).calls[i]? = some call := by
  have hlt := (List.getElem?_eq_some_iff.mp hcall).1
  simp only [push]
  rw [List.getElem?_append_left hlt, hcall]

theorem put_call (hcall : w.calls[i]? = some call) (hmoved : w.calls[j]? = some moved)
    (heffect : CallEffect w w' moved moved') (hcalls : w'.calls = w.calls.set j moved') :
    ∃ call', w'.calls[i]? = some call' ∧ CallEffect w w' call call' := by
  have hlt := (List.getElem?_eq_some_iff.mp hmoved).1
  rw [hcalls]
  by_cases hij : i = j
  · subst hij
    rw [hmoved] at hcall
    cases hcall
    exact ⟨moved', List.getElem?_set_self hlt, heffect⟩
  · exact ⟨call, by rw [List.getElem?_set_ne (Ne.symm hij), hcall], .refl w w' call⟩

theorem cachedKeys_calls : w.cachedKeys.calls = w.calls := by
  unfold cachedKeys
  split_ifs <;> rfl

theorem verifySignature_call (hcall : w.calls[i]? = some call)
    (parsed : Option (JSONWebSignature M P)) :
    (w.verifySignature parsed).calls[i]? = some call := by
  unfold World.verifySignature
  split
  · exact push_call hcall _
  · split
    · exact push_call (by rwa [cachedKeys_calls]) _
    · exact push_call hcall _

/-- The locked part of the refresh moves the call to one of three places. -/
theorem refreshedKeys_calls (hphase : call.phase = .refreshing) :
    ∃ call', CallEffect w (w.refreshedKeys i call) call call' ∧
      (w.refreshedKeys i call).calls = w.calls.set i call' := by
  unfold refreshedKeys
  split
  case h_1 f hflight => exact ⟨_, .joined f hphase hflight, rfl⟩
  case h_2 hflight =>
    split_ifs with hmay
    · exact ⟨_, .fetching hphase rfl, rfl⟩
    · exact ⟨_, .limited hphase hflight hmay, rfl⟩

theorem Step.callEffect (h : Step w w') (hcall : w.calls[i]? = some call) :
    ∃ call', w'.calls[i]? = some call' ∧ CallEffect w w' call call' := by
  cases h with
  | tick now hle => exact ⟨call, hcall, .refl w _ call⟩
  | verifySignature parsed => exact ⟨call, verifySignature_call hcall parsed, .refl w _ call⟩
  | prime => exact ⟨call, push_call hcall _, .refl w _ call⟩
  | refresh j moved hmoved hphase =>
    obtain ⟨moved', heffect, hcalls⟩ := refreshedKeys_calls (w := w) (i := j) hphase
    exact put_call hcall hmoved heffect hcalls
  | receive j moved hmoved f hphase fetch hfetch hclosed ended hended =>
    exact put_call hcall hmoved (.received f hphase ended ⟨fetch, hfetch, hended⟩) rfl
  | contextEnds j moved hmoved => exact put_call hcall hmoved (.same true fun _ => rfl) rfl
  | cancel j moved hmoved f hphase hctx => exact put_call hcall hmoved (.cancelled f hphase hctx) rfl
  | runFetch f running hfetch hrunning reply => exact ⟨call, hcall, .refl w _ call⟩
  | close f done hfetch ended hended => exact ⟨call, hcall, .refl w _ call⟩

end Calls

theorem Runs.returned {w w' : World M P} (h : Runs w w') {i : Nat} {call : Call M P}
    (hcall : w.calls[i]? = some call) {keys : List (JSONWebKey M)} {o : Outcome P}
    (hphase : call.phase = .returned keys o) :
    ∃ call', w'.calls[i]? = some call' ∧ call'.phase = .returned keys o := by
  induction h with
  | refl => exact ⟨call, hcall, hphase⟩
  | tail _ hstep ih =>
    obtain ⟨call', hcall', hphase'⟩ := ih
    obtain ⟨next, hnext, heffect⟩ := hstep.callEffect hcall'
    exact ⟨next, hnext, heffect.returned hphase'⟩

/-! ## Single flight, rate limit, good keys -/

/-- The token, naming the key id `keyID` (empty for none), verifies under the key. -/
def VerifiesUnder (jws : JSONWebSignature M P) (keyID : GoString) (key : JSONWebKey M) : Prop :=
  (keyID = [] ∨ key.KeyID = keyID) ∧ (jws.Verify key).isSome

theorem verifyWith_isSome {jws : JSONWebSignature M P} {keys : List (JSONWebKey M)}
    {keyID : GoString} {key : JSONWebKey M} (hkey : key ∈ keys) (h : VerifiesUnder jws keyID key) :
    ∃ payload, verifyWith jws keys keyID = some payload := by
  apply Option.isSome_iff_exists.mp
  rw [verifyWith, List.findSome?_isSome_iff]
  refine ⟨key, hkey, ?_⟩
  rcases h.1 with rfl | rfl
  · simpa using h.2
  · simpa using h.2

theorem Step.keys {w w' : World M P} (h : Step w w') :
    w'.set.keys = w.set.keys ∨ ∃ f e, ¬ EndedAs w f e ∧ EndedAs w' f e ∧ e.fetched = .ok w'.set.keys := by
  cases h.effect with
  | idle hset hfetches hclock => exact .inl (by rw [hset])
  | started hmay hset hfetches hclock => exact .inl (by rw [hset]; rfl)
  | closed f done hfetch ended hended hw => exact .inl (by rw [hw]; rfl)
  | ended f running hfetch hrunning reply hw =>
    subst hw
    cases hresult : fetch reply with
    | error er => exact .inl rfl
    | ok keys =>
      refine .inr ⟨f, endOf w (.ok keys), ?_, ?_, rfl⟩
      · rintro ⟨old, hold, hended⟩
        rw [hfetch] at hold
        cases hold
        rw [hrunning] at hended
        cases hended
      · exact (runFetch_endedAs hfetch hrunning f _).mpr (.inl ⟨rfl, rfl⟩)

theorem Step.keys_of_failed {w w' : World M P} (h : Step w w') {f : Nat} {e : Ended M}
    (hbefore : ¬ EndedAs w f e) (hafter : EndedAs w' f e) {error : FetchError}
    (herror : e.fetched = .error error) : w'.set.keys = w.set.keys := by
  cases h.effect with
  | idle hset hfetches hclock => rw [hset]
  | started hmay hset hfetches hclock => rw [hset]; rfl
  | closed g done hfetch ended hended hw => rw [hw]; rfl
  | ended g running hfetch hrunning reply hw =>
    subst hw
    rcases (runFetch_endedAs hfetch hrunning f e).mp hafter with ⟨-, rfl⟩ | hold
    · have herror' : fetch reply = .error error := herror
      simp [World.runFetch, setAfter, herror']
    · exact absurd hold hbefore

/-- A call whose token verifies under a key in use returns with its first step. -/
theorem verifySignature_known {w : World M P} {jws : JSONWebSignature M P} {keyID : GoString}
    (hsignatures : jws.Signatures = [keyID]) {key : JSONWebKey M} (hkey : key ∈ w.set.keys)
    (h : VerifiesUnder jws keyID key) :
    ∃ payload call, (w.verifySignature (some jws)).calls[w.calls.length]? = some call ∧
      call.phase = .returned [] (.accepted payload) := by
  obtain ⟨payload, hpayload⟩ := verifyWith_isSome hkey h
  refine ⟨payload,
    { begunAt := w.clock, token := some jws, cached := w.set.keys,
      phase := .returned [] (.accepted payload), ctxDone := false }, ?_, rfl⟩
  simp only [World.verifySignature, hsignatures, hpayload, push]
  rw [List.getElem?_append_right (by rw [cachedKeys_calls]), cachedKeys_calls, Nat.sub_self]
  rfl

/-- The cache of signing keys, in every state the goroutines can reach. -/
theorem key_cache_guarantees {clock : Int} {w : World M P} (h : Runs (World.start clock) w) :
    -- at most one fetch runs
    (∀ f g, Running w f → Running w g → f = g) ∧
    -- a fetch starts only after every earlier one ended, and not before the minimal interval
    (∀ f g t, f < g → StartedAt w g t →
      ∃ e, EndedAs w f e ∧ e.time + jwksMinRefresh ≤ t) ∧
    -- the keys change only where a fetch ends that succeeded with the new ones
    (∀ w', Step w w' → w'.set.keys ≠ w.set.keys →
      ∃ f e, ¬ EndedAs w f e ∧ EndedAs w' f e ∧ e.fetched = .ok w'.set.keys) ∧
    (∀ w', Step w w' → ∀ f e error, ¬ EndedAs w f e → EndedAs w' f e → e.fetched = .error error →
      w'.set.keys = w.set.keys) ∧
    -- once a fetch succeeded there is a public key
    ((∃ f e keys, EndedAs w f e ∧ e.fetched = .ok keys) →
      ∃ key ∈ w.set.keys, key.IsPublic = true) ∧
    -- a call that starts now and needs no other key returns at once, whatever runs
    (∀ (jws : JSONWebSignature M P) keyID key, jws.Signatures = [keyID] → key ∈ w.set.keys →
      VerifiesUnder jws keyID key →
      ∃ payload, ∀ w', Runs (w.verifySignature (some jws)) w' →
        ∃ call, w'.calls[w.calls.length]? = some call ∧
          call.phase = .returned [] (.accepted payload)) := by
  have ho := h.orderly (.start clock)
  refine ⟨?_, ho.spaced, ?_, ?_, ?_, ?_⟩
  · intro f g hf hg
    have hf' := (ho.inflight f).mpr hf
    rw [(ho.inflight g).mpr hg] at hf'
    exact (Option.some.inj hf').symm
  · intro w' hstep hne
    exact hstep.keys.resolve_left hne
  · intro w' hstep f e error hbefore hafter herror
    exact hstep.keys_of_failed hbefore hafter herror
  · rintro ⟨f, e, keys, hended, hok⟩
    exact ho.public_of_ok f e keys hended hok
  · intro jws keyID key hsignatures hkey hverifies
    obtain ⟨payload, call, hcall, hphase⟩ := verifySignature_known hsignatures hkey hverifies
    exact ⟨payload, fun w' hruns => hruns.returned hcall hphase⟩

def sampleKey : JSONWebKey Unit := { KeyID := lit "k1", IsPublic := true, Key := () }

def sampleToken : JSONWebSignature Unit Unit :=
  { Signatures := [lit "k1"]
    Verify := fun key => if key.KeyID = lit "k1" then some () else none }

def sampleReply : JwksReply Unit := .reply 200 (some 400) (some [sampleKey])

def primeCall (phase : Phase Unit Unit) : Call Unit Unit :=
  { begunAt := 0, token := none, cached := [], phase := phase, ctxDone := false }

def primedWorld : World Unit Unit :=
  { clock := 0
    set := { keys := [sampleKey], fetchedAt := some 0, doneAt := some 0, lastErr := none, inflight := none }
    fetches :=
      [{ startedAt := 0,
         ended := some { time := 0, fetched := .ok [sampleKey], keys := [sampleKey], err := none },
         closed := false }]
    calls := [primeCall (.waiting 0)] }

theorem runs_primedWorld : Runs (World.start 0) primedWorld := by
  have hprime : Step (World.start 0) (World.start 0 : World Unit Unit).prime := .prime _
  have hrefresh := Step.refresh (World.start 0 : World Unit Unit).prime 0 (primeCall .refreshing) rfl rfl
  have hfetch := Step.runFetch ((World.start 0 : World Unit Unit).prime.refreshedKeys 0 (primeCall .refreshing))
    0 { startedAt := 0, ended := none, closed := false } rfl rfl sampleReply
  exact ((Relation.ReflTransGen.refl.tail hprime).tail hrefresh).tail hfetch

theorem key_cache_guarantees_primed :
    ∃ payload, ∀ w', Runs (primedWorld.verifySignature (some sampleToken)) w' →
      ∃ call, w'.calls[1]? = some call ∧ call.phase = .returned [] (.accepted payload) :=
  (key_cache_guarantees runs_primedWorld).2.2.2.2.2 sampleToken (lit "k1") sampleKey rfl
    (List.mem_singleton_self _) ⟨.inr rfl, rfl⟩

end HarborBridge.KeySet
