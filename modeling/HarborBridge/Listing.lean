import HarborBridge.Harbor

/-! Keyset listing: what a walk over the pages of the robot list returns while other
actors create and delete robots. -/
namespace HarborBridge

open GoStrings Interaction

theorem getLastD_cases (xs : List Int) (c : Int) : xs.getLastD c = c ∨ xs.getLastD c ∈ xs := by
  cases xs with
  | nil => exact .inl rfl
  | cons x xs =>
    rw [List.getLastD_cons]
    exact .inr List.getLastD_mem_cons

theorem le_getLastD (c : Int) (xs : List Int) (hxs : (c :: xs).Pairwise (· < ·)) (x : Int)
    (hx : x ∈ c :: xs) : x ≤ xs.getLastD c := by
  induction xs generalizing c x with
  | nil => exact (List.mem_singleton.mp hx).le
  | cons y ys ih =>
    rw [List.getLastD_cons]
    rcases List.mem_cons.mp hx with rfl | hx
    · have hxy : x < y := List.rel_of_pairwise_cons hxs List.mem_cons_self
      exact hxy.le.trans (ih y hxs.tail y List.mem_cons_self)
    · exact ih y hxs.tail x hx

theorem pairwise_append_of_last (c : Int) (xs ys : List Int) (hxs : (c :: xs).Pairwise (· < ·))
    (hys : (xs.getLastD c :: ys).Pairwise (· < ·)) : (c :: (xs ++ ys)).Pairwise (· < ·) := by
  induction xs generalizing c with
  | nil => exact hys
  | cons x xs ih =>
    rw [List.getLastD_cons] at hys
    have hcx : c < x := List.rel_of_pairwise_cons hxs List.mem_cons_self
    have hrest := ih x hxs.tail hys
    refine List.pairwise_cons.mpr ⟨fun y hy => ?_, hrest⟩
    rcases List.mem_cons.mp hy with rfl | hy
    · exact hcx
    · exact hcx.trans (List.rel_of_pairwise_cons hrest hy)

namespace Client

variable (robotPrefix : GoString)

/-- A page that is taken in has increasing ids above the cursor, and each of its entries
is converted. -/
theorem takePage_ok (payload : List (Option HarborRobot)) (cursor cursor' : Int)
    (out out' : List Robot) (h : takePage robotPrefix payload cursor out = .ok (cursor', out')) :
    ∃ new, out' = out ++ new ∧
      List.Forall₂ (fun r robot => fromHarborRobot robotPrefix r = some robot)
        (payload.filterMap id) new ∧
      (cursor :: (payload.filterMap id).map (·.id)).Pairwise (· < ·) ∧
      cursor' = ((payload.filterMap id).map (·.id)).getLastD cursor := by
  induction payload generalizing cursor out with
  | nil =>
    obtain ⟨rfl, rfl⟩ := Prod.mk.inj (Except.ok.inj h)
    exact ⟨[], by simp⟩
  | cons entry payload ih =>
    cases entry with
    | none => exact ih cursor out h
    | some r =>
      unfold takePage at h
      split_ifs at h with hid
      split at h
      · cases h
      · next robot hrobot =>
        obtain ⟨new, rfl, hall, hinc, hlast⟩ := ih r.id (out ++ [robot]) h
        refine ⟨robot :: new, by simp, .cons hrobot hall, ?_, ?_⟩
        · have hcur : cursor < r.id := by omega
          simp only [List.filterMap_cons, id_eq, List.map_cons, List.pairwise_cons] at hinc ⊢
          refine ⟨fun x hx => ?_, hinc⟩
          rcases List.mem_cons.mp hx with rfl | hx
          · exact hcur
          · exact hcur.trans (hinc.1 x hx)
        · simpa only [List.filterMap_cons, id_eq, List.map_cons, List.getLastD_cons] using hlast

theorem takePage_error (payload : List (Option HarborRobot)) (cursor : Int) (out : List Robot)
    (e : ClientErr) (h : takePage robotPrefix payload cursor out = .error e) :
    e ≠ .robotNotFound := by
  induction payload generalizing cursor out with
  | nil => cases h
  | cons entry payload ih =>
    cases entry with
    | none => exact ih cursor out h
    | some r =>
      unfold takePage at h
      split_ifs at h
      · obtain rfl := Except.error.inj h
        exact fun hnot => by cases hnot
      · split at h
        · obtain rfl := Except.error.inj h
          exact fun hnot => by cases hnot
        · exact ih _ _ h

theorem forall₂_mem (rs : List HarborRobot) (robots : List Robot)
    (h : List.Forall₂ (fun r robot => fromHarborRobot robotPrefix r = some robot) rs robots)
    (robot : Robot) (hr : robot ∈ robots) : ∃ r ∈ rs, fromHarborRobot robotPrefix r = some robot := by
  induction h with
  | nil => cases hr
  | cons hfirst _ ih =>
    rcases List.mem_cons.mp hr with rfl | hr
    · exact ⟨_, List.mem_cons_self, hfirst⟩
    · obtain ⟨r, hmem, hfrom⟩ := ih hr
      exact ⟨r, List.mem_cons_of_mem _ hmem, hfrom⟩

theorem forall₂_id (rs : List HarborRobot) (robots : List Robot)
    (h : List.Forall₂ (fun r robot => fromHarborRobot robotPrefix r = some robot) rs robots) :
    robots.map (·.id) = rs.map (·.id) := by
  induction h with
  | nil => rfl
  | cons hr _ ih => simp [ih, (fromHarborRobot_some robotPrefix _ _ hr).1]

theorem listFrom_exec {W : Type} (serve : W → (e : HarborCall) → HarborAnswer e × W)
    (filter : Option GoString) (pages : Nat) (cursor : Int) (out : List Robot) (w : W) :
    (listFrom robotPrefix filter (pages + 1) cursor out).exec serve w =
      let call := HarborCall.listRobot filter (int64 (cursor + 1))
      match (serve w call).1 with
      | Except.error e => (.error (.harbor e), (serve w call).2)
      | Except.ok payload =>
        match takePage robotPrefix payload cursor out with
        | .error e => (.error e, (serve w call).2)
        | .ok (cursor, out) =>
          if payload.length < pageSize then (.ok out, (serve w call).2)
          else (listFrom robotPrefix filter pages cursor out).exec serve (serve w call).2 := by
  simp only [listFrom, Sdk.listRobot_bind, Prog.exec]
  cases (serve w (HarborCall.listRobot filter (int64 (cursor + 1)))).1 with
  | error e => rfl
  | ok payload =>
    dsimp only
    cases takePage robotPrefix payload cursor out with
    | error e => rfl
    | ok next =>
      dsimp only
      split_ifs <;> rfl

theorem listFrom_calls {W : Type} (serve : W → (e : HarborCall) → HarborAnswer e × W)
    (filter : Option GoString) (pages : Nat) (cursor : Int) (out : List Robot) (w : W) :
    (listFrom robotPrefix filter pages cursor out).calls serve w ≤ pages := by
  induction pages generalizing cursor out w with
  | zero => exact le_refl 0
  | succ pages ih =>
    simp only [listFrom, Sdk.listRobot_bind, Prog.calls]
    apply Nat.add_le_add_right
    cases (serve w (HarborCall.listRobot filter (int64 (cursor + 1)))).1 with
    | error e => exact Nat.zero_le pages
    | ok payload =>
      dsimp only
      cases takePage robotPrefix payload cursor out with
      | error e => exact Nat.zero_le pages
      | ok next =>
        dsimp only
        split_ifs
        · exact Nat.zero_le pages
        · exact ih next.1 next.2 _

/-- Whatever the server answers, a walk that succeeds adds robots with increasing ids. -/
theorem listFrom_increasing {W : Type} (serve : W → (e : HarborCall) → HarborAnswer e × W)
    (filter : Option GoString) (pages : Nat) (cursor : Int) (out robots : List Robot) (w w' : W)
    (h : (listFrom robotPrefix filter pages cursor out).exec serve w = (.ok robots, w')) :
    ∃ new, robots = out ++ new ∧ (cursor :: new.map (·.id)).Pairwise (· < ·) := by
  induction pages generalizing cursor out w with
  | zero => cases h
  | succ pages ih =>
    rw [listFrom_exec] at h
    dsimp only at h
    split at h
    · cases h
    · next payload hpayload =>
      split at h
      · cases h
      · next cursor' out' htake =>
        obtain ⟨new, rfl, hall, hinc, rfl⟩ := takePage_ok robotPrefix payload _ _ _ _ htake
        rw [← forall₂_id robotPrefix _ _ hall] at hinc h
        split_ifs at h
        · obtain ⟨hout, -⟩ := Prod.mk.inj h
          exact ⟨new, (Except.ok.inj hout).symm, hinc⟩
        · obtain ⟨more, rfl, hmore⟩ := ih _ _ _ h
          refine ⟨new ++ more, by simp, ?_⟩
          rw [List.map_append]
          exact pairwise_append_of_last cursor _ _ hinc hmore

end Client

/-! ## Harbor as the walk meets it -/

namespace Harbor

variable (h : Harbor)

/-- A robot that a page does not show comes after a full page. -/
theorem mem_page_or (filter : Option GoString) (idFrom : Int) (r : StoredRobot)
    (hr : r ∈ h.robots) (hm : h.matching filter r = true) (hid : idFrom ≤ r.id) :
    some (h.report r) ∈ h.page filter idFrom ∨
      (h.page filter idFrom).length = pageSize ∧
        ∀ x ∈ (h.page filter idFrom).filterMap id, x.id < r.id := by
  let matches_ := h.robots.filter fun r => idFrom ≤ r.id && h.matching filter r
  have hmem : r ∈ matches_ := List.mem_filter.mpr ⟨hr, by simp [hid, hm]⟩
  have hsorted : (matches_.take pageSize ++ matches_.drop pageSize).Pairwise
      fun r s => r.id < s.id := by
    rw [List.take_append_drop]
    exact h.sorted.filter _
  rw [← List.take_append_drop pageSize matches_, List.mem_append] at hmem
  rcases hmem with htake | hdrop
  · exact .inl (List.mem_map.mpr ⟨r, htake, rfl⟩)
  · right
    have hlong : pageSize < matches_.length := by
      by_contra hshort
      rw [List.drop_eq_nil_of_le (by omega)] at hdrop
      cases hdrop
    refine ⟨by simp only [page, List.length_map]; exact List.length_take_of_le hlong.le, ?_⟩
    intro x hx
    simp only [page, List.filterMap_map, List.mem_filterMap, Function.comp, id_eq,
      Option.some.injEq] at hx
    obtain ⟨y, hy, rfl⟩ := hx
    exact (List.pairwise_append.mp hsorted).2.2 y hy r hdrop

theorem page_report (filter : Option GoString) (idFrom : Int) (x : HarborRobot)
    (hx : x ∈ (h.page filter idFrom).filterMap id) :
    ∃ r ∈ h.robots, h.matching filter r = true ∧ x = h.report r := by
  simp only [page, List.filterMap_map, List.mem_filterMap, Function.comp, id_eq,
    Option.some.injEq] at hx
  obtain ⟨r, hr, rfl⟩ := hx
  obtain ⟨hr, hshown⟩ := List.mem_filter.mp (List.mem_of_mem_take hr)
  exact ⟨r, hr, (Bool.and_eq_true_iff.mp hshown).2, rfl⟩

end Harbor

/-- Listings are allowed and are answered from the state of the moment. -/
structure Lists {W : Type} (S : Setting HarborCall HarborAnswer W) (harbor : W → Harbor) :
    Prop where
  may : ∀ w filter idFrom, S.may w (.listRobot filter idFrom)
  sem : ∀ w filter idFrom payload w',
    S.sem w (.listRobot filter idFrom) (Except.ok payload) w' →
    payload = (harbor w).page filter idFrom

namespace Client

variable (robotPrefix : GoString) {W : Type} {S : Setting HarborCall HarborAnswer W}
  {harbor : W → Harbor}

/-- The rule for the loop over the pages. `Kept` holds before and after each request, `I` before one,
with the cursor and what was taken in until then, and `Listed` of what is returned. -/
theorem wp_pages (Kept : W → Prop) (I : Int → List Robot → W → Prop) (Listed : List Robot → W → Prop)
    {filter : Option GoString} (hmay : ∀ w idFrom, S.may w (.listRobot filter idFrom))
    (hkept : ∀ w idFrom r w', Kept w → S.sem w (.listRobot filter idFrom) r w' → Kept w')
    (hpage : ∀ cursor out w payload w' cursor' out', Kept w → I cursor out w →
      S.sem w (.listRobot filter (int64 (cursor + 1))) (Except.ok payload) w' →
      takePage robotPrefix payload cursor out = .ok (cursor', out') →
      (payload.length < pageSize → Listed out' w') ∧ (pageSize ≤ payload.length → I cursor' out' w'))
    (pages : Nat) (cursor : Int) (out : List Robot) (w : W) (hw : Kept w) (hI : I cursor out w) :
    (listFrom robotPrefix filter pages cursor out).Wp S (fun res w' => Kept w' ∧
      (∀ robots, res = .ok robots → Listed robots w') ∧ res ≠ .error .robotNotFound) w := by
  induction pages generalizing cursor out w with
  | zero => exact ⟨hw, (fun _ h => by cases h), fun h => by cases h⟩
  | succ pages ih =>
    simp only [listFrom, Sdk.listRobot_bind]
    refine ⟨hmay w _, fun r w' hs => ?_⟩
    have hw' := hkept w _ r w' hw hs
    cases r with
    | error e => exact ⟨hw', (fun _ h => by cases h), fun h => by cases h⟩
    | ok payload =>
      dsimp only
      cases htake : takePage robotPrefix payload cursor out with
      | error e =>
        exact ⟨hw', (fun _ h => by cases h), fun h => takePage_error robotPrefix payload cursor out e htake
          (Except.error.inj h)⟩
      | ok next =>
        obtain ⟨hlast, hnext⟩ := hpage cursor out w payload w' next.1 next.2 hw hI hs htake
        dsimp only
        split_ifs with hshort
        · refine ⟨hw', fun robots h => ?_, fun h => by cases h⟩
          obtain rfl := Except.ok.inj h
          exact hlast hshort
        · exact ih next.1 next.2 w' hw' (hnext (not_lt.mp hshort))

/-- A listing returns robots that were seen: `Seen` holds of a robot that a page shows, and
further requests keep it, as they keep `Kept`. -/
theorem wp_list_seen (Seen : Robot → W → Prop) (Kept : W → Prop) (filter : Option GoString)
    (hmay : ∀ w idFrom, S.may w (.listRobot filter idFrom))
    (hlist : ∀ w idFrom r w', S.sem w (.listRobot filter idFrom) r w' →
      (Kept w → Kept w') ∧ ∀ robot, Seen robot w → Seen robot w')
    (hseen : ∀ w idFrom payload w' x robot, S.sem w (.listRobot filter idFrom) (Except.ok payload) w' →
      x ∈ payload.filterMap id → fromHarborRobot robotPrefix x = some robot → Seen robot w')
    (w : W) (hkept : Kept w) : (list robotPrefix filter).Wp S
      (fun res w' => Kept w' ∧ ∀ robots, res = .ok robots → ∀ robot ∈ robots, Seen robot w') w := by
  refine Prog.wp_mono (fun _ _ h => ⟨h.1, h.2.1⟩) _ _ (wp_pages robotPrefix Kept
    (fun _ out w => ∀ robot ∈ out, Seen robot w) (fun robots w => ∀ robot ∈ robots, Seen robot w) hmay
    (fun w idFrom r w' hw hs => (hlist w idFrom r w' hs).1 hw) ?_ maxPages 0 [] w hkept nofun)
  intro cursor out w payload w' cursor' out' _ hout hs htake
  obtain ⟨new, rfl, hall, -⟩ := takePage_ok robotPrefix _ _ _ _ _ htake
  have hnew : ∀ robot ∈ out ++ new, Seen robot w' := by
    intro robot hr
    rcases List.mem_append.mp hr with hr | hr
    · exact (hlist w _ _ w' hs).2 robot (hout robot hr)
    · obtain ⟨x, hx, hfrom⟩ := forall₂_mem robotPrefix _ _ hall robot hr
      exact hseen w _ _ w' x robot hs hx hfrom
  exact ⟨fun _ => hnew, fun _ => hnew⟩

theorem int64_of_lt (i : Int) (hlo : 0 ≤ i) (hhi : i < 2 ^ 63) : int64 i = i := by
  unfold int64
  rw [Int.bmod_eq_of_le] <;> omega

/-- What taking in a page of Harbor does to a robot that is there: it was at or below the
cursor, it is taken in, or it comes after the page, which is full then. -/
theorem takePage_page (h : Harbor) (filter : Option GoString) (cursor cursor' : Int)
    (out new : List Robot) (hcursor : 0 ≤ cursor)
    (htake : takePage robotPrefix (h.page filter (int64 (cursor + 1))) cursor out =
      .ok (cursor', out ++ new)) :
    0 ≤ cursor' ∧ ∀ r ∈ h.robots, h.matching filter r = true →
      r.id ≤ cursor ∨ (∃ robot ∈ new, robot.id = r.id) ∨
        (h.page filter (int64 (cursor + 1))).length = pageSize ∧ cursor' < r.id := by
  obtain ⟨new', hnew, hall, hinc, rfl⟩ := takePage_ok robotPrefix _ _ _ _ _ htake
  obtain rfl := List.append_cancel_left hnew
  have hids := forall₂_id robotPrefix _ _ hall
  have hlast := getLastD_cases
    (((h.page filter (int64 (cursor + 1))).filterMap id).map (·.id)) cursor
  constructor
  · rcases hlast with hsame | hmem
    · rw [hsame]
      exact hcursor
    · exact hcursor.trans (List.rel_of_pairwise_cons hinc hmem).le
  · intro r hr hm
    rcases le_or_gt r.id cursor with hle | hgt
    · exact .inl hle
    · have hbound := (h.bounds r hr).2
      have hmax := h.nextId_le
      have hwrap := int64_of_lt (cursor + 1) (by omega) (by omega)
      rw [hwrap] at hids hlast ⊢
      rcases h.mem_page_or filter (cursor + 1) r hr hm (by omega) with hin | ⟨hfull, hlt⟩
      · have hmem : r.id ∈ new.map (·.id) := by
          rw [hids]
          exact List.mem_map.mpr ⟨_, List.mem_filterMap.mpr ⟨_, hin, rfl⟩, rfl⟩
        exact .inr (.inl (List.mem_map.mp hmem))
      · refine .inr (.inr ⟨hfull, ?_⟩)
        rcases hlast with hsame | hmem
        · rw [hsame]
          exact hgt
        · obtain ⟨x, hx, hxid⟩ := List.mem_map.mp hmem
          rw [← hxid]
          exact hlt x hx

/-- A matching robot that is there throughout is listed. `There` says that it has been there
so far. -/
theorem wp_list_mem (hl : Lists S harbor) (filter : Option GoString) (j : Int) (There : W → Prop)
    (hthere : ∀ w idFrom r w', S.sem w (.listRobot filter idFrom) r w' → There w' →
      There w ∧ ∃ x ∈ (harbor w).robots, x.id = j ∧ (harbor w).matching filter x = true) (w : W) :
    (list robotPrefix filter).Wp S (fun res w' =>
      ∀ robots, res = .ok robots → There w' → ∃ robot ∈ robots, robot.id = j) w := by
  refine Prog.wp_mono (fun _ _ h => h.2.1) _ _ (wp_pages robotPrefix (fun _ => True)
    (fun cursor out w => 0 ≤ cursor ∧ (There w → 0 < j → j ≤ cursor → ∃ robot ∈ out, robot.id = j))
    (fun robots w => There w → ∃ robot ∈ robots, robot.id = j) (fun w _ => hl.may w filter _)
    (fun _ _ _ _ _ _ => trivial) ?_ maxPages 0 [] w trivial ⟨le_refl 0, fun _ hpos hle => by omega⟩)
  intro cursor out w payload w' cursor' out' _ hI hs htake
  obtain ⟨hcursor, hout⟩ := hI
  obtain rfl := hl.sem w _ _ payload w' hs
  obtain ⟨new, rfl, _⟩ := takePage_ok robotPrefix _ _ _ _ _ htake
  have hpage := takePage_page robotPrefix (harbor w) filter cursor _ out new hcursor htake
  -- the robot is taken in by now, or it comes after the page
  have hstep : There w' → (∃ robot ∈ out ++ new, robot.id = j) ∨
      ((harbor w).page filter (int64 (cursor + 1))).length = pageSize ∧ cursor' < j := by
    intro ht
    obtain ⟨htw, x, hx, rfl, hm⟩ := hthere w _ _ w' hs ht
    rcases hpage.2 x hx hm with hle | ⟨robot, hin, hid⟩ | hafter
    · obtain ⟨robot, hin, hid⟩ := hout htw ((harbor w).bounds x hx).1 hle
      exact .inl ⟨robot, List.mem_append_left _ hin, hid⟩
    · exact .inl ⟨robot, List.mem_append_right _ hin, hid⟩
    · exact .inr hafter
  refine ⟨fun hshort ht => ?_, fun _ => ⟨hpage.1, fun ht _ hle => ?_⟩⟩
  · rcases hstep ht with hin | ⟨hfull, _⟩
    · exact hin
    · omega
  · rcases hstep ht with hin | ⟨_, hlt⟩
    · exact hin
    · omega

end Client

/-- Harbor while a listing runs: `states n` is what it holds when the listing makes its
request number `n`, whatever others created and deleted before. -/
def listingServer (states : Nat → Harbor) (n : Nat) :
    (call : HarborCall) → HarborAnswer call × Nat
  | .listRobot filter idFrom => (Except.ok ((states n).page filter idFrom), n + 1)
  | call => (harborFailure call .transport, n)

def listingSetting (states : Nat → Harbor) : Setting HarborCall HarborAnswer Nat where
  sem n call r n' := listingServer states n call = (r, n')
  may _ _ := True

/-- What such a listing returns was read on one of its pages. -/
theorem wp_list_shown (robotPrefix : GoString) (states : Nat → Harbor) (filter : Option GoString) :
    (Client.list robotPrefix filter).Wp (listingSetting states) (fun res n =>
      ∀ robots, res = .ok robots → ∀ robot ∈ robots, ∃ m < n, ∃ r ∈ (states m).robots,
        (states m).matching filter r = true ∧
        fromHarborRobot robotPrefix ((states m).report r) = some robot) 0 := by
  refine Prog.wp_mono (fun _ _ h => h.2) _ _ (Client.wp_list_seen robotPrefix
    (fun robot n => ∃ m < n, ∃ r ∈ (states m).robots, (states m).matching filter r = true ∧
      fromHarborRobot robotPrefix ((states m).report r) = some robot) (fun _ => True) filter
    (fun _ _ => trivial) (fun n idFrom res n' hs => ⟨fun _ => trivial, ?_⟩)
    (fun n idFrom payload n' x robot hs hx hfrom => ?_) 0 trivial)
  · rintro robot ⟨m, hm, hr⟩
    have hn : n + 1 = n' := congrArg Prod.snd hs
    exact ⟨m, by omega, hr⟩
  · have hn : n + 1 = n' := congrArg Prod.snd hs
    obtain rfl : (states n).page filter idFrom = payload := Except.ok.inj (congrArg Prod.fst hs)
    obtain ⟨r, hr, hmatching, rfl⟩ := (states n).page_report filter idFrom x hx
    exact ⟨n, by omega, r, hr, hmatching, hfrom⟩

/-- A listing misses nothing: a robot that matches and exists throughout the walk is
returned, and every robot at most once, as it was read on a page. Any server at all is asked at
most a thousand times, and either the listing fails or the ids are positive and increase. -/
theorem list_misses_nothing (robotPrefix : GoString) (filter : Option GoString) :
    (∀ (states : Nat → Harbor) (robots : List Robot) (requests : Nat),
      (Client.list robotPrefix filter).exec (listingServer states) 0 = (.ok robots, requests) →
      (robots.map (·.id)).Pairwise (· < ·) ∧
      (∀ robot ∈ robots, ∃ n < requests, ∃ r ∈ (states n).robots, (states n).matching filter r = true ∧
        fromHarborRobot robotPrefix ((states n).report r) = some robot) ∧
      ∀ id, (∀ n < requests, ∃ r ∈ (states n).robots, r.id = id ∧
          (states n).matching filter r = true) →
        ∃ robot ∈ robots, robot.id = id) ∧
    (∀ (W : Type) (serve : W → (call : HarborCall) → HarborAnswer call × W) (w : W),
      (Client.list robotPrefix filter).calls serve w ≤ maxPages ∧
      ∀ robots, ((Client.list robotPrefix filter).exec serve w).1 = .ok robots →
        (robots.map (·.id)).Pairwise (· < ·) ∧ ∀ robot ∈ robots, 0 < robot.id) := by
  have hincreasing : ∀ (W : Type) (serve : W → (call : HarborCall) → HarborAnswer call × W)
      (w : W) (robots : List Robot),
      ((Client.list robotPrefix filter).exec serve w).1 = .ok robots →
      (0 :: robots.map (·.id)).Pairwise (· < ·) := by
    intro W serve w robots h
    obtain ⟨new, rfl, hinc⟩ := Client.listFrom_increasing robotPrefix serve filter maxPages 0 []
      robots w _ (Prod.ext h rfl)
    exact hinc
  constructor
  · intro states robots requests h
    refine ⟨(hincreasing Nat _ 0 robots (congrArg Prod.fst h)).tail, ?_, fun id hthere => ?_⟩
    · have hrun := Prog.wp_exec (listingServer states) (fun _ _ => rfl) _ _ _
        (wp_list_shown robotPrefix states filter)
      rw [h] at hrun
      exact hrun robots rfl
    have hl : Lists (listingSetting states) states :=
      ⟨fun _ _ _ => trivial, fun n _ _ payload n' hs =>
        (Except.ok.inj (congrArg Prod.fst hs)).symm⟩
    have hwp := Client.wp_list_mem robotPrefix hl filter id
      (fun n => ∀ m < n, ∃ r ∈ (states m).robots, r.id = id ∧
        (states m).matching filter r = true)
      (fun n idFrom r n' hs ht => by
        obtain rfl : n + 1 = n' := congrArg Prod.snd hs
        exact ⟨fun m hm => ht m (by omega), ht n (by omega)⟩) 0
    have hrun := Prog.wp_exec (listingServer states) (fun _ _ => rfl) _ _ _ hwp
    rw [h] at hrun
    exact hrun robots rfl hthere
  · intro W serve w
    refine ⟨Client.listFrom_calls robotPrefix serve filter maxPages 0 [] w, fun robots h => ?_⟩
    have hinc := hincreasing W serve w robots h
    refine ⟨hinc.tail, fun robot hr => ?_⟩
    exact List.rel_of_pairwise_cons hinc (List.mem_map_of_mem hr)

def pairHarbor : Harbor :=
  (emptyHarbor.create ⟨lit "a", [], -1, []⟩ (lit "p") (by decide)).create ⟨lit "b", lit "text", -1, []⟩
    (lit "q") (by decide)

/-- Both are listed with one request, the second one with its description. -/
theorem list_misses_nothing_pair : ∃ robots,
    (Client.list (lit "robot$") none).exec (listingServer fun _ => pairHarbor) 0 = (.ok robots, 1) ∧
    robots.length = 2 ∧ ∃ robot ∈ robots, robot.id = 2 ∧ robot.description = lit "text" := by
  obtain ⟨robots, h⟩ : ∃ robots,
      (Client.list (lit "robot$") none).exec (listingServer fun _ => pairHarbor) 0 = (.ok robots, 1) :=
    ⟨_, rfl⟩
  obtain ⟨-, hshown, hlisted⟩ :=
    (list_misses_nothing (lit "robot$") none).1 (fun _ => pairHarbor) robots 1 h
  obtain ⟨robot, hmem, hid⟩ := hlisted 2 fun _ _ => ⟨_, List.mem_cons_of_mem _ List.mem_cons_self, rfl, rfl⟩
  obtain ⟨_, -, r, hr, -, hfrom⟩ := hshown robot hmem
  obtain ⟨hrid, -, hdescription, -⟩ := fromHarborRobot_some _ _ _ hfrom
  have htext : ∀ r ∈ pairHarbor.robots, r.id = 2 → r.description = lit "text" := by decide
  refine ⟨robots, h, ?_, robot, hmem, hid, hdescription.trans (htext r hr (hrid.symm.trans hid))⟩
  have hlength : (((Client.list (lit "robot$") none).exec (listingServer fun _ => pairHarbor) 0).1.toOption.map
      List.length) = some 2 := by decide +kernel
  rw [h] at hlength
  exact Option.some.inj hlength

end HarborBridge
