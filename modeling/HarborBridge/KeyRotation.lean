import HarborBridge.KeySet

/-!
# A rotated signing key is picked up in bounded time

A call that does not find the key in the cache joins the running fetch, starts one, or is
held off by the rate limit. `jwksMinRefresh + jwksFetchTimeout` after the key is published
each of these leads to a fetch that started late enough to have brought it.
-/

namespace HarborBridge.KeySet

open GoStrings Rfc3339 World

variable {M P : Type}

/-! ## Endpoints that publish the key -/

/-- What the assumptions say of one fetch, seen at the time `clock`: it ends in time, and one
that started at `T` or later brings what was published while it ran. -/
def KeyFetch.Timely (T : Int) (published : Int → List (JSONWebKey M)) (clock : Int)
    (fetch : KeyFetch M) : Prop :=
  match fetch.ended with
  | none => clock ≤ fetch.startedAt + jwksFetchTimeout
  | some e =>
    e.time ≤ fetch.startedAt + jwksFetchTimeout ∧
      (T ≤ fetch.startedAt →
        ∃ t, fetch.startedAt ≤ t ∧ t ≤ e.time ∧ e.fetched = .ok (published t))

def Timely (T : Int) (published : Int → List (JSONWebKey M)) (w : World M P) : Prop :=
  ∀ fetch ∈ w.fetches, fetch.Timely T published w.clock

/-- The runs in which every fetch is timely all along. -/
abbrev TimelyRuns (T : Int) (published : Int → List (JSONWebKey M)) :
    World M P → World M P → Prop :=
  Relation.ReflTransGen fun w w' => Step w w' ∧ Timely T published w'

theorem TimelyRuns.runs {T : Int} {published : Int → List (JSONWebKey M)} {w w' : World M P}
    (h : TimelyRuns T published w w') : Runs w w' :=
  Relation.ReflTransGen.mono (fun _ _ hstep => hstep.1) w w' h

theorem timely_start (T : Int) (published : Int → List (JSONWebKey M)) (clock : Int) :
    Timely T published (World.start clock : World M P) := by
  intro fetch hfetch
  cases hfetch

section Key

variable {T : Int} {published : Int → List (JSONWebKey M)} {k : JSONWebKey M}

/-- A fetch that started at `T` or later leaves its waiters with the key. -/
theorem Timely.mem_keys {w : World M P} (ht : Timely T published w) (ho : Orderly w)
    (hpublished : ∀ t, T ≤ t → k ∈ published t) {f : Nat} {e : Ended M} (hended : EndedAs w f e)
    {s : Int} (hstarted : StartedAt w f s) (hs : T ≤ s) : k ∈ e.keys := by
  obtain ⟨fetch, hfetch, hfetchEnded⟩ := hended
  obtain ⟨fetch', hfetch', rfl⟩ := hstarted
  rw [hfetch] at hfetch'
  cases hfetch'
  have htimely := ht fetch (List.mem_of_getElem? hfetch)
  simp only [KeyFetch.Timely, hfetchEnded] at htimely
  obtain ⟨t, hle, -, hok⟩ := htimely.2 hs
  rw [(ho.keys_of_ok f e _ ⟨fetch, hfetch, hfetchEnded⟩ hok).1]
  exact hpublished t (hs.trans hle)

theorem Timely.running {w : World M P} (ht : Timely T published w) {f : Nat} (h : Running w f) :
    ∃ s, StartedAt w f s ∧ w.clock ≤ s + jwksFetchTimeout := by
  obtain ⟨fetch, hfetch, hnone⟩ := h
  have htimely := ht fetch (List.mem_of_getElem? hfetch)
  simp only [KeyFetch.Timely, hnone] at htimely
  exact ⟨fetch.startedAt, ⟨fetch, hfetch, rfl⟩, htimely⟩

theorem Timely.ended {w : World M P} (ht : Timely T published w) {f : Nat} {e : Ended M}
    (h : EndedAs w f e) : ∃ s, StartedAt w f s ∧ e.time ≤ s + jwksFetchTimeout := by
  obtain ⟨fetch, hfetch, hsome⟩ := h
  have htimely := ht fetch (List.mem_of_getElem? hfetch)
  simp only [KeyFetch.Timely, hsome] at htimely
  exact ⟨fetch.startedAt, ⟨fetch, hfetch, rfl⟩, htimely.1⟩

/-- Held off by the rate limit late enough, the set already has the key. -/
theorem Timely.limited {w : World M P} (ht : Timely T published w) (ho : Orderly w)
    (hpublished : ∀ t, T ≤ t → k ∈ published t) (hflight : w.set.inflight = none)
    (hmay : ¬ w.set.mayFetchLocked w.clock = true)
    (hlate : T + jwksMinRefresh + jwksFetchTimeout ≤ w.clock) : k ∈ w.set.keys := by
  rw [w.set.mayFetchLocked_iff, not_and] at hmay
  have hrecent := hmay hflight
  push Not at hrecent
  obtain ⟨done, hdone, hlt⟩ := hrecent
  obtain ⟨f, e, hended, rfl, hkeys, -⟩ := ho.last done hdone
  obtain ⟨s, hstarted, hle⟩ := ht.ended hended
  rw [← hkeys]
  exact ht.mem_keys ho hpublished hended hstarted (by omega)

/-! ## Calls that bring a token signed by the key -/

structure Late (T : Int) (k : JSONWebKey M) (call : Call M P) : Prop where
  token : ∃ jws keyID, call.token = some jws ∧ jws.Signatures = [keyID] ∧ VerifiesUnder jws keyID k
  begunAt : T + jwksMinRefresh + jwksFetchTimeout ≤ call.begunAt

/-- What holds of a late call whose context has not ended: it waits only for a fetch that
brings the key, and has returned only with success. -/
def Served (w : World M P) (T : Int) (call : Call M P) : Prop :=
  match call.phase with
  | .refreshing => True
  | .waiting f => ∃ s, StartedAt w f s ∧ T ≤ s
  | .returned _ o => ∃ payload, o = .accepted payload

theorem Late.answer_accepted {call : Call M P} (hl : Late T k call) {keys : List (JSONWebKey M)}
    (hk : k ∈ keys) (err : Option RefreshError) :
    ∃ payload, answer call keys err = .accepted payload := by
  obtain ⟨jws, keyID, htoken, hsignatures, hverifies⟩ := hl.token
  obtain ⟨payload, hpayload⟩ := verifyWith_isSome hk hverifies
  refine ⟨payload, ?_⟩
  simp only [answer, htoken, hsignatures, List.headD_cons, verdict, hpayload]

theorem Effect.clock_le {w w' : World M P} (h : Effect w w') : w.clock ≤ w'.clock := by
  cases h with
  | idle hset hfetches hclock => exact hclock
  | started hmay hset hfetches hclock => exact hclock.ge
  | ended f running hfetch hrunning reply hw => exact hw ▸ le_refl w.clock
  | closed f done hfetch ended hended hw => exact hw ▸ le_refl w.clock

theorem Effect.startedAt {w w' : World M P} (h : Effect w w') {f : Nat} {s : Int}
    (hs : StartedAt w f s) : StartedAt w' f s := by
  cases h with
  | idle hset hfetches hclock =>
    obtain ⟨fetch, hfetch, hstart⟩ := hs
    exact ⟨fetch, by rw [hfetches, hfetch], hstart⟩
  | started hmay hset hfetches hclock =>
    obtain ⟨fetch, hfetch, hstart⟩ := hs
    exact ⟨fetch, (started_fetch hfetches).mpr (.inl hfetch), hstart⟩
  | ended g running hg hrunning reply hw =>
    subst hw
    have hfetches : (w.runFetch g running (fetch reply)).fetches =
        w.fetches.set g { running with ended := some (endOf w (fetch reply)) } := rfl
    exact (set_startedAt hg hfetches rfl f s).mpr hs
  | closed g done hg ended hended hw =>
    subst hw
    have hfetches : (w.close g done).fetches = w.fetches.set g { done with closed := true } := rfl
    exact (set_startedAt hg hfetches rfl f s).mpr hs

/-! ## New calls -/

/-- A call as its first step leaves it; one with a well-formed token of one signature has been
accepted or goes on to the refresh. -/
def Begun (w : World M P) (call : Call M P) : Prop :=
  call.begunAt = w.clock ∧
    ∀ jws keyID, call.token = some jws → jws.Signatures = [keyID] →
      call.phase = .refreshing ∨ ∃ payload, call.phase = .returned [] (.accepted payload)

/-- With a new call, a place in the list holds what it held or the new call. -/
theorem push_inv {w : World M P} {new call' : Call M P} {i : Nat}
    (h : (w.push new).calls[i]? = some call') : w.calls[i]? = some call' ∨ call' = new := by
  simp only [push] at h
  rcases lt_or_ge i w.calls.length with hlt | hge
  · rw [List.getElem?_append_left hlt] at h
    exact .inl h
  · rw [List.getElem?_append_right hge] at h
    exact .inr (List.mem_singleton.mp (List.mem_of_getElem? h))

theorem verifySignature_inv {w : World M P} {parsed : Option (JSONWebSignature M P)}
    {call' : Call M P} {i : Nat} (h : (w.verifySignature parsed).calls[i]? = some call') :
    w.calls[i]? = some call' ∨ Begun w call' := by
  unfold World.verifySignature at h
  split at h
  · refine (push_inv h).imp_right ?_
    rintro rfl
    refine ⟨rfl, fun jws keyID htoken => ?_⟩
    cases htoken
  · rename_i jws
    split at h
    · rename_i keyID hsignatures
      have hinv := push_inv h
      rw [cachedKeys_calls] at hinv
      refine hinv.imp_right ?_
      rintro rfl
      refine ⟨rfl, fun _ _ _ _ => ?_⟩
      cases hverify : verifyWith jws w.set.keys keyID with
      | none => exact .inl rfl
      | some payload => exact .inr ⟨payload, rfl⟩
    · rename_i hmany
      refine (push_inv h).imp_right ?_
      rintro rfl
      refine ⟨rfl, fun jws' keyID htoken hone => ?_⟩
      cases htoken
      exact absurd hone (hmany keyID)

theorem put_inv {w w' : World M P} {j i : Nat} {moved call' : Call M P}
    (hcalls : w'.calls = w.calls.set j moved) (h : w'.calls[i]? = some call') :
    ∃ call, w.calls[i]? = some call := by
  have hlt := (List.getElem?_eq_some_iff.mp h).1
  rw [hcalls, List.length_set] at hlt
  exact ⟨_, List.getElem?_eq_getElem hlt⟩

/-- Where the calls after a step come from. -/
theorem Step.origin {w w' : World M P} (h : Step w w') {i : Nat} {call' : Call M P}
    (hcall' : w'.calls[i]? = some call') :
    (∃ call, w.calls[i]? = some call ∧ CallEffect w w' call call') ∨ Begun w call' := by
  have hold : (∃ call, w.calls[i]? = some call) →
      (∃ call, w.calls[i]? = some call ∧ CallEffect w w' call call') := by
    rintro ⟨call, hcall⟩
    obtain ⟨call'', hcall'', heffect⟩ := h.callEffect hcall
    rw [hcall'] at hcall''
    cases hcall''
    exact ⟨call, hcall, heffect⟩
  cases h with
  | tick now hle => exact .inl (hold ⟨call', hcall'⟩)
  | verifySignature parsed =>
    exact (verifySignature_inv hcall').imp_left fun hcall => hold ⟨call', hcall⟩
  | prime =>
    rcases push_inv hcall' with hcall | rfl
    · exact .inl (hold ⟨call', hcall⟩)
    · refine .inr ⟨rfl, fun jws keyID htoken => ?_⟩
      cases htoken
  | refresh j moved hmoved hphase =>
    obtain ⟨moved', -, hcalls⟩ := refreshedKeys_calls (w := w) (i := j) hphase
    exact .inl (hold (put_inv hcalls hcall'))
  | receive j moved hmoved f hphase fetch hfetch hclosed ended hended =>
    exact .inl (hold (put_inv rfl hcall'))
  | contextEnds j moved hmoved => exact .inl (hold (put_inv rfl hcall'))
  | cancel j moved hmoved f hphase hctx => exact .inl (hold (put_inv rfl hcall'))
  | runFetch f running hfetch hrunning reply => exact .inl (hold ⟨call', hcall'⟩)
  | close f done hfetch ended hended => exact .inl (hold ⟨call', hcall'⟩)

theorem refreshedKeys_leaves {w : World M P} {i : Nat} {call : Call M P}
    (hcall : w.calls[i]? = some call) :
    ∃ call', (w.refreshedKeys i call).calls[i]? = some call' ∧ call'.phase ≠ .refreshing := by
  have hlt := (List.getElem?_eq_some_iff.mp hcall).1
  unfold refreshedKeys
  split
  · exact ⟨_, List.getElem?_set_self hlt, by simp⟩
  · split_ifs
    · exact ⟨_, List.getElem?_set_self hlt, by simp⟩
    · exact ⟨_, List.getElem?_set_self hlt, by simp⟩

/-! ## Late calls are served -/

structure Serving (T : Int) (published : Int → List (JSONWebKey M)) (k : JSONWebKey M)
    (w : World M P) : Prop where
  orderly : Orderly w
  timely : Timely T published w
  begun : ∀ (i : Nat) call, w.calls[i]? = some call → call.begunAt ≤ w.clock
  served : ∀ (i : Nat) call, w.calls[i]? = some call → Late T k call → call.ctxDone = false →
    Served w T call

theorem Late.of_effect {w w' : World M P} {call call' : Call M P}
    (heffect : CallEffect w w' call call') (h : Late T k call') : Late T k call := by
  obtain ⟨hbegun, htoken, -, -⟩ := heffect.kept
  exact ⟨htoken ▸ h.token, hbegun ▸ h.begunAt⟩

theorem CallEffect.ctxDone {w w' : World M P} {call call' : Call M P}
    (heffect : CallEffect w w' call call') (h : call'.ctxDone = false) : call.ctxDone = false := by
  by_contra hdone
  rw [heffect.kept.2.2.2 (Bool.eq_true_of_not_eq_false hdone)] at h
  cases h

theorem Served.congr {w w' : World M P} (h : Effect w w') {call call' : Call M P}
    (hphase : call'.phase = call.phase) (hs : Served w T call) : Served w' T call' := by
  unfold Served at hs ⊢
  rw [hphase]
  split
  · trivial
  · rename_i f hf
    rw [hf] at hs
    obtain ⟨s, hstarted, hle⟩ := hs
    exact ⟨s, h.startedAt hstarted, hle⟩
  · rename_i hf
    rwa [hf] at hs

theorem Serving.call {w w' : World M P} (hw : Serving T published k w)
    (hpublished : ∀ t, T ≤ t → k ∈ published t) (hstep : Step w w') {i : Nat} {call call' : Call M P}
    (hcall : w.calls[i]? = some call) (heffect : CallEffect w w' call call') (hlate : Late T k call)
    (hctx : call.ctxDone = false) : Served w' T call' := by
  have hserved := hw.served i call hcall hlate hctx
  have htime : T + jwksMinRefresh + jwksFetchTimeout ≤ w.clock :=
    hlate.begunAt.trans (hw.begun i call hcall)
  cases heffect with
  | same ctxDone hkept => exact hserved.congr hstep.effect rfl
  | joined f hphase hflight =>
    -- a fetch that still runs cannot have started before `T`
    obtain ⟨s, hstarted, hle⟩ := hw.timely.running ((hw.orderly.inflight f).mp hflight)
    refine ⟨s, hstep.effect.startedAt hstarted, ?_⟩
    have hmin : 0 ≤ jwksMinRefresh := by decide
    omega
  | fetching hphase hfetches =>
    refine ⟨w.clock, ⟨_, (started_fetch hfetches).mpr (.inr ⟨rfl, rfl⟩), rfl⟩, ?_⟩
    have hmin : 0 ≤ jwksMinRefresh := by decide
    have htimeout : 0 ≤ jwksFetchTimeout := by decide
    omega
  | limited hphase hflight hmay =>
    exact hlate.answer_accepted (hw.timely.limited hw.orderly hpublished hflight hmay htime) _
  | received f hphase e hended =>
    rw [Served, hphase] at hserved
    obtain ⟨s, hstarted, hle⟩ := hserved
    exact hlate.answer_accepted (hw.timely.mem_keys hw.orderly hpublished hended hstarted hle) _
  | cancelled f hphase hdone =>
    rw [hctx] at hdone
    cases hdone

theorem Begun.served {w w' : World M P} {call : Call M P} (h : Begun w call) (hlate : Late T k call) :
    Served w' T call := by
  obtain ⟨jws, keyID, htoken, hsignatures, -⟩ := hlate.token
  rcases h.2 jws keyID htoken hsignatures with hphase | ⟨payload, hphase⟩
  · rw [Served, hphase]
    trivial
  · rw [Served, hphase]
    exact ⟨payload, rfl⟩

theorem Serving.step {w w' : World M P} (hw : Serving T published k w)
    (hpublished : ∀ t, T ≤ t → k ∈ published t) (hstep : Step w w') (ht : Timely T published w') :
    Serving T published k w' where
  orderly := hw.orderly.step hstep
  timely := ht
  begun i call' hcall' := by
    rcases hstep.origin hcall' with ⟨call, hcall, heffect⟩ | hbegun
    · rw [heffect.kept.1]
      exact (hw.begun i call hcall).trans hstep.effect.clock_le
    · exact hbegun.1.trans_le hstep.effect.clock_le
  served i call' hcall' hlate hctx := by
    rcases hstep.origin hcall' with ⟨call, hcall, heffect⟩ | hbegun
    · exact hw.call hpublished hstep hcall heffect (.of_effect heffect hlate) (heffect.ctxDone hctx)
    · exact hbegun.served hlate

theorem TimelyRuns.serving {clock : Int} {w : World M P}
    (h : TimelyRuns T published (World.start clock) w) (hpublished : ∀ t, T ≤ t → k ∈ published t) :
    Serving T published k w := by
  induction h with
  | refl =>
    refine ⟨.start clock, timely_start T published clock, ?_, ?_⟩
    · intro i call hcall
      cases hcall
    · intro i call hcall
      cases hcall
  | tail _ hstep ih => exact ih.step hpublished hstep.1 hstep.2

/-- Once its fetch has ended, a waiting call is two steps from its answer. -/
theorem Serving.answered {w : World M P} (hw : Serving T published k w)
    (hpublished : ∀ t, T ≤ t → k ∈ published t) {i : Nat} {call : Call M P}
    (hcall : w.calls[i]? = some call) (hlate : Late T k call) (hctx : call.ctxDone = false) {f : Nat}
    (hphase : call.phase = .waiting f) {e : Ended M} (hended : EndedAs w f e) :
    ∃ w' call' keys payload, Runs w w' ∧ w'.clock = w.clock ∧ w'.calls[i]? = some call' ∧
      call'.phase = .returned keys (.accepted payload) := by
  have hserved := hw.served i call hcall hlate hctx
  rw [Served, hphase] at hserved
  obtain ⟨s, hstarted, hle⟩ := hserved
  have hk := hw.timely.mem_keys hw.orderly hpublished hended hstarted hle
  obtain ⟨payload, hpayload⟩ := hlate.answer_accepted hk (e.err.map RefreshError.fetch)
  obtain ⟨fetch, hfetch, hsome⟩ := hended
  have hclose : Step w (w.close f fetch) := .close w f fetch hfetch e hsome
  have hfetches : (w.close f fetch).fetches = w.fetches.set f { fetch with closed := true } := rfl
  have hreceive := Step.receive (w.close f fetch) i call hcall f hphase { fetch with closed := true }
    ((set_fetch hfetch hfetches).mpr (.inl ⟨rfl, rfl⟩)) rfl e hsome
  have hlt := (List.getElem?_eq_some_iff.mp hcall).1
  refine ⟨_, _, e.keys, payload, (Relation.ReflTransGen.single hclose).tail hreceive, rfl,
    List.getElem?_set_self hlt, ?_⟩
  rw [hpayload]

end Key

/-! ## Keys unavailable -/

theorem not_holdsKey {keys : List (JSONWebKey M)} {keyID : GoString} {key : JSONWebKey M}
    (h : holdsKey keys keyID = false) (hne : keyID ≠ []) (hkey : key ∈ keys) : key.KeyID ≠ keyID := by
  intro heq
  have hany : keys.any (fun key => decide (key.KeyID = keyID)) = true :=
    List.any_eq_true.mpr ⟨key, hkey, decide_eq_true heq⟩
  simp [holdsKey, hany, hne] at h

theorem verdict_unavailable {jws : JSONWebSignature M P} {keyID : GoString}
    {cached keys : List (JSONWebKey M)} {err : Option RefreshError} {e : RefreshError}
    (h : verdict jws keyID cached keys err = .unavailable e) :
    holdsKey cached keyID = false ∧ holdsKey keys keyID = false := by
  unfold verdict at h
  split at h
  · cases h
  · split at h
    · split_ifs at h with hheld
      simpa using hheld
    · cases h

/-- The keys a call reports unavailable for held none of the id its token names. -/
def Honest (call : Call M P) : Prop :=
  ∀ jws keyID refreshed e, call.token = some jws → jws.Signatures = [keyID] →
    call.phase = .returned refreshed (.unavailable e) →
    holdsKey call.cached keyID = false ∧ holdsKey refreshed keyID = false

theorem honest_answer {call : Call M P} (keys : List (JSONWebKey M)) (err : Option RefreshError) :
    Honest { call with phase := .returned keys (answer call keys err) } := by
  intro jws keyID refreshed e htoken hsignatures hphase
  have htoken' : call.token = some jws := htoken
  have hanswer : answer call keys err = .unavailable e := by
    injection hphase
  have hkeys : keys = refreshed := by
    injection hphase
  rw [answer, htoken'] at hanswer
  simp only [hsignatures, List.headD_cons] at hanswer
  exact hkeys ▸ verdict_unavailable hanswer

theorem CallEffect.honest {w w' : World M P} {call call' : Call M P}
    (h : CallEffect w w' call call') (hh : Honest call) : Honest call' := by
  cases h with
  | same ctxDone hctx => exact hh
  | joined | fetching =>
    intro jws keyID refreshed e _ _ hphase
    cases hphase
  | limited | received | cancelled => exact honest_answer _ _

theorem Begun.honest {w : World M P} {call : Call M P} (h : Begun w call) : Honest call := by
  intro jws keyID refreshed e htoken hsignatures hphase
  rcases h.2 jws keyID htoken hsignatures with hrefreshing | ⟨payload, hreturned⟩
  · rw [hphase] at hrefreshing
    cases hrefreshing
  · rw [hphase] at hreturned
    cases hreturned

theorem Runs.honest {clock : Int} {w : World M P} (h : Runs (World.start clock) w) :
    ∀ (i : Nat) call, w.calls[i]? = some call → Honest call := by
  induction h with
  | refl =>
    intro i call hcall
    cases hcall
  | tail _ hstep ih =>
    intro i call' hcall'
    rcases hstep.origin hcall' with ⟨call, hcall, heffect⟩ | hbegun
    · exact heffect.honest (ih i call hcall)
    · exact hbegun.honest

/-! ## The bound -/

/-- A rotated key is picked up in bounded time, and only a key the bridge does not hold is
reported as unavailable. -/
theorem rotated_key_picked_up (clock : Int) :
    (∀ (T : Int) (published : Int → List (JSONWebKey M)) (k : JSONWebKey M) (w : World M P),
      (∀ t, T ≤ t → k ∈ published t) → TimelyRuns T published (World.start clock) w →
      ∀ (i : Nat) call, w.calls[i]? = some call → Late T k call → call.ctxDone = false →
        -- the call has returned with success, for good,
        (∀ refreshed o, call.phase = .returned refreshed o →
          ∃ payload, ∀ w', Runs w w' → ∃ call', w'.calls[i]? = some call' ∧
            call'.phase = .returned refreshed (.accepted payload)) ∧
        -- or takes the lock next and leaves the refresh,
        (call.phase = .refreshing → Step w (w.refreshedKeys i call) ∧
          ∃ call', (w.refreshedKeys i call).calls[i]? = some call' ∧ call'.phase ≠ .refreshing) ∧
        -- or waits for a fetch that still runs, or else can return with success
        (∀ f, call.phase = .waiting f → Running w f ∨
          ∃ w' call' keys payload, Runs w w' ∧ w'.clock = w.clock ∧ w'.calls[i]? = some call' ∧
            call'.phase = .returned keys (.accepted payload))) ∧
    (∀ w : World M P, Runs (World.start clock) w →
      ∀ (i : Nat) call jws keyID refreshed o, w.calls[i]? = some call → call.token = some jws →
        jws.Signatures = [keyID] → keyID ≠ [] → call.phase = .returned refreshed o →
        (∃ key, (key ∈ call.cached ∨ key ∈ refreshed) ∧ key.KeyID = keyID) →
        ∀ e, o ≠ .unavailable e) := by
  constructor
  · intro T published k w hpublished hruns i call hcall hlate hctx
    have hw := hruns.serving hpublished
    have hserved := hw.served i call hcall hlate hctx
    refine ⟨?_, ?_, ?_⟩
    · intro refreshed o hphase
      rw [Served, hphase] at hserved
      obtain ⟨payload, rfl⟩ := hserved
      exact ⟨payload, fun w' h => h.returned hcall hphase⟩
    · intro hphase
      refine ⟨.refresh w i call hcall hphase, ?_⟩
      exact refreshedKeys_leaves hcall
    · intro f hphase
      rw [Served, hphase] at hserved
      obtain ⟨s, ⟨fetch, hfetch, -⟩, -⟩ := hserved
      by_cases hrunning : Running w f
      · exact .inl hrunning
      · have hlt := (List.getElem?_eq_some_iff.mp hfetch).1
        obtain ⟨e, hended⟩ := endedAs_of_not_running hlt hrunning
        exact .inr (hw.answered hpublished hcall hlate hctx hphase hended)
  · rintro w hruns i call jws keyID refreshed o hcall htoken hsignatures hne hphase ⟨key, hkey, hid⟩ e rfl
    obtain ⟨hcached, hrefreshed⟩ := hruns.honest i call hcall jws keyID refreshed e htoken hsignatures hphase
    rcases hkey with hkey | hkey
    · exact not_holdsKey hcached hne hkey hid
    · exact not_holdsKey hrefreshed hne hkey hid

/-- The first fetch of the sample run, at each of its stages. -/
def lateFetch (ended : Option (Ended Unit)) (closed : Bool) : KeyFetch Unit :=
  { startedAt := 40 * second, ended := ended, closed := closed }

def lateEnded : Ended Unit :=
  { time := 40 * second, fetched := .ok [sampleKey], keys := [sampleKey], err := none }

/-- A call with the sample token that finds an empty cache 40 s after the start. -/
def lateCall (phase : Phase Unit Unit) : Call Unit Unit :=
  { begunAt := 40 * second, token := some sampleToken, cached := [], phase := phase, ctxDone := false }

theorem lateCall_late (phase : Phase Unit Unit) : Late 0 sampleKey (lateCall phase) :=
  ⟨⟨sampleToken, lit "k1", rfl, rfl, .inr rfl, rfl⟩, by simp [lateCall, jwksMinRefresh, jwksFetchTimeout, second]⟩

def lateWorld (fetch : KeyFetch Unit) (set : CachedKeySet Unit) (phase : Phase Unit Unit) :
    World Unit Unit :=
  { clock := 40 * second, set := set, fetches := [fetch], calls := [lateCall phase] }

def fetchingSet : CachedKeySet Unit :=
  { keys := [], fetchedAt := none, doneAt := none, lastErr := none, inflight := some 0 }

def fetchedSet : CachedKeySet Unit :=
  { keys := [sampleKey], fetchedAt := some (40 * second), doneAt := some (40 * second),
    lastErr := none, inflight := none }

theorem timely_lateWorld (ended : Option (Ended Unit)) (h : ∀ e, ended = some e → e = lateEnded)
    (closed : Bool) (set : CachedKeySet Unit) (phase : Phase Unit Unit) :
    Timely 0 (fun _ => [sampleKey]) (lateWorld (lateFetch ended closed) set phase) := by
  intro fetch hfetch
  cases List.mem_singleton.mp hfetch
  cases ended with
  | none =>
    simp [KeyFetch.Timely, lateFetch, lateWorld, jwksFetchTimeout, second]
  | some e =>
    cases h e rfl
    refine ⟨by simp [lateFetch, lateEnded, jwksFetchTimeout, second], fun _ => ⟨40 * second, le_rfl, le_rfl, rfl⟩⟩

/-- The call starts the fetch and waits for it until it is done. -/
theorem timelyRuns_waiting :
    TimelyRuns 0 (fun _ => [sampleKey]) (World.start 0)
      (lateWorld (lateFetch (some lateEnded) true) fetchedSet (.waiting 0)) := by
  have hnone : ∀ e : Ended Unit, none = some e → e = lateEnded := by
    intro e h
    cases h
  have hsome : ∀ e, some lateEnded = some e → e = lateEnded := by
    intro e h
    exact (Option.some.inj h).symm
  have htick := Step.tick (World.start 0 : World Unit Unit) (40 * second) (by decide)
  have hverify := Step.verifySignature { (World.start 0 : World Unit Unit) with clock := 40 * second }
    (some sampleToken)
  have hrefresh := Step.refresh (lateWorld (lateFetch none false) fetchingSet .refreshing) 0
    (lateCall .refreshing) rfl rfl
  have hfetch := Step.runFetch (lateWorld (lateFetch none false) fetchingSet (.waiting 0)) 0
    (lateFetch none false) rfl rfl sampleReply
  have hclose := Step.close (lateWorld (lateFetch (some lateEnded) false) fetchedSet (.waiting 0)) 0
    (lateFetch (some lateEnded) false) rfl lateEnded rfl
  exact ((((Relation.ReflTransGen.refl.tail ⟨htick, timely_start 0 _ (40 * second)⟩).tail
    ⟨hverify, timely_lateWorld none hnone false fetchingSet .refreshing⟩).tail
    ⟨hrefresh, timely_lateWorld none hnone false fetchingSet (.waiting 0)⟩).tail
    ⟨hfetch, timely_lateWorld (some lateEnded) hsome false fetchedSet (.waiting 0)⟩).tail
    ⟨hclose, timely_lateWorld (some lateEnded) hsome true fetchedSet (.waiting 0)⟩

/-- It then returns with what the fetch brought. -/
theorem timelyRuns_lateWorld :
    TimelyRuns 0 (fun _ => [sampleKey]) (World.start 0)
      (lateWorld (lateFetch (some lateEnded) true) fetchedSet (.returned [sampleKey] (.accepted ()))) := by
  have hreceive := Step.receive (lateWorld (lateFetch (some lateEnded) true) fetchedSet (.waiting 0)) 0
    (lateCall (.waiting 0)) rfl 0 rfl (lateFetch (some lateEnded) true) rfl rfl lateEnded rfl
  exact timelyRuns_waiting.tail ⟨hreceive, timely_lateWorld (some lateEnded)
    (fun e h => (Option.some.inj h).symm) true fetchedSet _⟩

theorem rotated_key_picked_up_late :
    ∃ payload, ∀ w', Runs (lateWorld (lateFetch (some lateEnded) true) fetchedSet
        (.returned [sampleKey] (.accepted ()))) w' →
      ∃ call', w'.calls[0]? = some call' ∧ call'.phase = .returned [sampleKey] (.accepted payload) :=
  ((rotated_key_picked_up 0).1 0 (fun _ => [sampleKey]) sampleKey _
    (fun _ _ => List.mem_singleton_self _) timelyRuns_lateWorld 0 _ rfl (lateCall_late _) rfl).1 _ _ rfl

def endedContext (phase : Phase Unit Unit) : World Unit Unit :=
  { lateWorld (lateFetch (some lateEnded) true) fetchedSet phase with
    calls := [{ lateCall phase with ctxDone := true }] }

/-- A context that outlasts the fetch is not enough. The fetch has brought the key and its
channel is closed while the context is alive; the context ends before the waiting call runs
again, and of the two cases that are ready then the call may take the context's. -/
theorem context_ends_before_return :
    TimelyRuns 0 (fun _ => [sampleKey]) (World.start 0)
        (lateWorld (lateFetch (some lateEnded) true) fetchedSet (.waiting 0)) ∧
      Late 0 sampleKey (lateCall (.waiting 0)) ∧ (lateCall (.waiting 0)).ctxDone = false ∧
      TimelyRuns 0 (fun _ => [sampleKey])
        (lateWorld (lateFetch (some lateEnded) true) fetchedSet (.waiting 0))
        (endedContext (.returned [] (.unavailable .waiting))) := by
  have htimely (phase : Phase Unit Unit) : Timely 0 (fun _ => [sampleKey]) (endedContext phase) :=
    timely_lateWorld (some lateEnded) (fun e h => (Option.some.inj h).symm) true fetchedSet phase
  have hends := Step.contextEnds (lateWorld (lateFetch (some lateEnded) true) fetchedSet (.waiting 0)) 0
    (lateCall (.waiting 0)) rfl
  have hcancel := Step.cancel (endedContext (.waiting 0)) 0
    { lateCall (.waiting 0) with ctxDone := true } rfl 0 rfl rfl
  refine ⟨timelyRuns_waiting, lateCall_late _, rfl, ?_⟩
  exact (Relation.ReflTransGen.refl.tail ⟨hends, htimely (.waiting 0)⟩).tail ⟨hcancel, htimely _⟩

end HarborBridge.KeySet
