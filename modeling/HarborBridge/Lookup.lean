import HarborBridge.HarborClient

/-! A lookup by name on a Harbor that nobody changes: a robot that is there is found, or the
prefixes differ and the lookup says so. -/
namespace HarborBridge

open GoStrings Interaction

/-- Robots that Harbor's API creates: editable, with different and valid names, and so many that
the client lists them all. The last id that an int64 holds is not in use. -/
structure Harbor.Uniform (h : Harbor) : Prop where
  editable : ∀ r ∈ h.robots, r.editable = true
  names : (h.robots.map (·.name)).Nodup
  valid : ∀ r ∈ h.robots, robotNameRegex r.name = true
  few : h.robots.length < maxPages * pageSize
  ids : ∀ r ∈ h.robots, r.id < 2 ^ 63 - 1

def Harbor.seen (h : Harbor) (r : StoredRobot) : Robot :=
  let permissions := r.permissions.filterMap id
  { id := r.id
    name := r.name
    wireName := h.robotNamePrefix ++ r.name
    description := r.description
    disabled := r.disable
    expiresAt := r.expiresAt
    permissions := normalizePermissions
      ((permissions.filter (·.kind = robotPermissionKindProject)).flatMap projectEntries)
    foreignAccess := permissions.any foreignPermission
    secret := [] }

namespace Harbor

variable {h : Harbor} {r : StoredRobot} {name robotPrefix : GoString} {robot : Robot}

theorem Uniform.wireName (hu : h.Uniform) (hr : r ∈ h.robots) :
    h.wireName r = h.robotNamePrefix ++ r.name := by
  rw [Harbor.wireName, if_pos (hu.editable r hr)]

theorem Uniform.fromHarborRobot (hu : h.Uniform) (hr : r ∈ h.robots) :
    fromHarborRobot h.robotNamePrefix (h.report r) = some (h.seen r) := by
  have hvalid := hu.valid r hr
  unfold HarborBridge.fromHarborRobot
  simp [report, hu.wireName hr, hvalid, seen]

/-- With another prefix the robot is not seen under the name that Harbor has. -/
theorem Uniform.name_of_other_prefix (hu : h.Uniform) (hr : r ∈ h.robots)
    (hne : h.robotNamePrefix ≠ robotPrefix)
    (hrobot : HarborBridge.fromHarborRobot robotPrefix (h.report r) = some robot) :
    robot.wireName = h.robotNamePrefix ++ r.name ∧ robot.wireName = robotPrefix ++ robot.name ∧
      robot.name ≠ r.name := by
  obtain ⟨-, hwire, -, -, -, hname⟩ := fromHarborRobot_some _ _ _ hrobot
  have hreported : (h.report r).name = h.robotNamePrefix ++ r.name := hu.wireName hr
  rw [hreported] at hwire hname
  have hcut : robot.wireName = robotPrefix ++ robot.name := by
    unfold HarborBridge.fromHarborRobot at hrobot
    dsimp only at hrobot
    split_ifs at hrobot with haccounted
    rw [hreported, show (h.report r).editable = true from hu.editable r hr] at haccounted
    rw [hwire, hname]
    cases hcut : cutPrefix (h.robotNamePrefix ++ r.name) robotPrefix with
    | none => simp [hcut] at haccounted
    | some rest =>
      rw [trimPrefix, hcut, Option.getD_some]
      exact (cutPrefix_eq_some _ _ _).mp hcut
  refine ⟨hwire, hcut, fun hsame => hne ?_⟩
  rw [hwire, hsame] at hcut
  exact List.append_cancel_right hcut

/-! ## The robots that a listing is about -/

theorem Uniform.eq_of_name (hu : h.Uniform) {r' : StoredRobot} (hr : r ∈ h.robots)
    (hr' : r' ∈ h.robots) (hname : r.name = r'.name) : r = r' :=
  List.inj_on_of_nodup_map hu.names hr hr' hname

/-- A filter that Harbor honours leaves the robot of the name. -/
theorem Uniform.filter_name (hu : h.Uniform) (hhonours : h.honoursFilter = true)
    (hr : r ∈ h.robots) : h.robots.filter (h.matching (some r.name)) = [r] := by
  have hmatching : ∀ x ∈ h.robots, h.matching (some r.name) x = (x == r) := by
    intro x hx
    rw [matching, hhonours, Bool.not_true, Bool.false_or, Bool.eq_iff_iff, beq_iff_eq, beq_iff_eq]
    exact ⟨fun hname => hu.eq_of_name hx hr hname, fun heq => heq ▸ rfl⟩
  have hnodup : h.robots.Nodup := hu.names.of_map _
  rw [List.filter_congr hmatching, List.filter_beq, List.count_eq_one_of_mem hnodup hr]
  rfl

theorem Uniform.filter_absent (hhonours : h.honoursFilter = true)
    (habsent : ∀ r ∈ h.robots, r.name ≠ name) : h.robots.filter (h.matching (some name)) = [] := by
  rw [List.filter_eq_nil_iff]
  intro r hr
  rw [matching, hhonours, Bool.not_true, Bool.false_or, beq_iff_eq]
  exact habsent r hr

end Harbor

namespace Client

variable {h : Harbor} {robotPrefix : GoString}

def listing : Setting HarborCall HarborAnswer Harbor where
  sem h call r h' := h.serve call = (r, h')
  may _ call := ∃ filter idFrom, call = .listRobot filter idFrom

theorem takePage_reads (read : StoredRobot → Robot) (rs : List StoredRobot) (cursor : Int)
    (out : List Robot)
    (hread : ∀ r ∈ rs, fromHarborRobot robotPrefix (h.report r) = some (read r))
    (hsorted : (cursor :: rs.map (·.id)).Pairwise (· < ·)) :
    takePage robotPrefix (rs.map fun r => some (h.report r)) cursor out =
      .ok ((rs.map (·.id)).getLastD cursor, out ++ rs.map read) := by
  induction rs generalizing cursor out with
  | nil => simp [takePage]
  | cons r rs ih =>
    have hlt : cursor < r.id := List.rel_of_pairwise_cons hsorted List.mem_cons_self
    have hnot : ¬ (h.report r).id ≤ cursor := not_le.mpr hlt
    rw [List.map_cons, takePage, if_neg hnot, hread r List.mem_cons_self]
    dsimp only
    rw [show (h.report r).id = r.id from rfl,
      ih r.id (out ++ [read r]) (fun x hx => hread x (List.mem_cons_of_mem r hx)) hsorted.tail,
      List.map_cons, List.map_cons, List.getLastD_cons, List.append_assoc, List.singleton_append]

/-- The rest of a listing, when the client can read all of it and has pages left for it. -/
theorem wp_listFrom_reads (read : StoredRobot → Robot) (filter : Option GoString) (pages : Nat)
    (cursor : Int) (out : List Robot) (before rest : List StoredRobot)
    (hsplit : h.robots.filter (h.matching filter) = before ++ rest)
    (hbefore : ∀ r ∈ before, r.id ≤ cursor) (hrest : ∀ r ∈ rest, cursor < r.id)
    (hcursor : 0 ≤ cursor ∧ cursor < 2 ^ 63 - 1) (hids : ∀ r ∈ rest, r.id < 2 ^ 63 - 1)
    (hread : ∀ r ∈ rest, fromHarborRobot robotPrefix (h.report r) = some (read r))
    (hpages : rest.length < pages * pageSize) :
    (listFrom robotPrefix filter pages cursor out).Wp listing
      (fun res h' => h' = h ∧ res = .ok (out ++ rest.map read)) h := by
  induction pages generalizing cursor out before rest with
  | zero => omega
  | succ pages ih =>
    have hfrom : int64 (cursor + 1) = cursor + 1 := int64_of_lt _ (by omega) (by omega)
    have hpage : h.page filter (cursor + 1) =
        (rest.take pageSize).map fun r => some (h.report r) := by
      have hfilter : (h.robots.filter fun r => decide (cursor + 1 ≤ r.id) && h.matching filter r) =
          rest := by
        rw [← List.filter_filter, hsplit, List.filter_append]
        rw [List.filter_eq_nil_iff.mpr fun r hr => ?_, List.filter_eq_self.mpr fun r hr => ?_,
          List.nil_append]
        · exact decide_eq_true (hrest r hr)
        · have := hbefore r hr
          simp only [decide_eq_true_eq]
          omega
      rw [Harbor.page, hfilter]
    have hsorted : (before ++ rest).Pairwise fun r s => r.id < s.id := by
      rw [← hsplit]
      exact h.sorted.filter _
    have hsorted' : (cursor :: (rest.take pageSize).map (·.id)).Pairwise (· < ·) := by
      refine List.pairwise_cons.mpr ⟨fun i hi => ?_, List.pairwise_map.mpr ?_⟩
      · obtain ⟨r, hr, rfl⟩ := List.mem_map.mp hi
        exact hrest r (List.mem_of_mem_take hr)
      · exact (List.pairwise_append.mp hsorted).2.1.sublist (List.take_sublist _ _)
    simp only [listFrom, Sdk.listRobot_bind]
    refine ⟨⟨_, _, rfl⟩, fun r h' hs => ?_⟩
    obtain ⟨rfl, rfl⟩ := Prod.mk.inj
      (show (Except.ok (h.page filter (int64 (cursor + 1))), h) = (r, h') from hs)
    rw [hfrom, hpage]
    dsimp only
    rw [takePage_reads read (rest.take pageSize) cursor out
      (fun r hr => hread r (List.mem_of_mem_take hr)) hsorted']
    dsimp only
    split_ifs with hshort
    · -- the last page
      rw [List.length_map, List.length_take] at hshort
      have hall : rest.take pageSize = rest := List.take_of_length_le (by omega)
      exact ⟨rfl, by rw [hall]⟩
    · rw [List.length_map, List.length_take] at hshort
      have hfull : pageSize ≤ rest.length := by omega
      have hlast := le_getLastD cursor _ hsorted'
      have hmem : ((rest.take pageSize).map (·.id)).getLastD cursor ∈ (rest.take pageSize).map (·.id) := by
        rcases getLastD_cases ((rest.take pageSize).map (·.id)) cursor with hsame | hmem
        · exfalso
          obtain ⟨r, hr⟩ := List.exists_mem_of_length_pos
            (l := rest.take pageSize) (by rw [List.length_take]; unfold pageSize at *; omega)
          have hle := hlast r.id (List.mem_cons_of_mem _ (List.mem_map_of_mem hr))
          have hlt := hrest r (List.mem_of_mem_take hr)
          omega
        · exact hmem
      obtain ⟨final, hfinal, hid⟩ := List.mem_map.mp hmem
      have hdrop : rest = rest.take pageSize ++ rest.drop pageSize :=
        (List.take_append_drop pageSize rest).symm
      refine Prog.wp_mono (fun res h' hres => ?_) _ _ (ih _ _ (before ++ rest.take pageSize)
        (rest.drop pageSize) ?_ ?_ ?_ ?_ ?_ ?_ ?_)
      · refine ⟨hres.1, hres.2.trans ?_⟩
        rw [List.append_assoc, ← List.map_append, ← hdrop]
      · rw [hsplit, List.append_assoc, ← hdrop]
      · intro r hr
        rcases List.mem_append.mp hr with hr | hr
        · have := hlast cursor List.mem_cons_self
          exact (hbefore r hr).trans this
        · exact hlast r.id (List.mem_cons_of_mem _ (List.mem_map_of_mem hr))
      · intro r hr
        rw [← hid]
        have hrest' := (List.pairwise_append.mp hsorted).2.1
        rw [hdrop] at hrest'
        exact (List.pairwise_append.mp hrest').2.2 final hfinal r hr
      · rw [← hid]
        have hlt := hrest final (List.mem_of_mem_take hfinal)
        have hmax := hids final (List.mem_of_mem_take hfinal)
        omega
      · exact fun r hr => hids r (List.mem_of_mem_drop hr)
      · exact fun r hr => hread r (List.mem_of_mem_drop hr)
      · rw [List.length_drop]
        rw [Nat.add_mul, Nat.one_mul] at hpages
        omega

variable (robotPrefix) in
theorem wp_list_reads (hu : h.Uniform) (read : StoredRobot → Robot) (filter : Option GoString)
    (hread : ∀ r ∈ h.robots.filter (h.matching filter),
      fromHarborRobot robotPrefix (h.report r) = some (read r)) :
    (list robotPrefix filter).Wp listing
      (fun res h' => h' = h ∧ res = .ok ((h.robots.filter (h.matching filter)).map read)) h := by
  have hmem : ∀ r ∈ h.robots.filter (h.matching filter), r ∈ h.robots :=
    fun r hr => List.mem_of_mem_filter hr
  exact wp_listFrom_reads read filter maxPages 0 [] [] _ rfl nofun
    (fun r hr => (h.bounds r (hmem r hr)).1) ⟨le_rfl, by decide⟩ (fun r hr => hu.ids r (hmem r hr))
    hread ((List.length_filter_le _ _).trans_lt hu.few)

/-- A listing of one robot that the configured prefix does not account for. -/
theorem wp_list_mismatch {r : StoredRobot} (filter : Option GoString)
    (hone : h.robots.filter (h.matching filter) = [r])
    (hread : fromHarborRobot robotPrefix (h.report r) = none) :
    (list robotPrefix filter).Wp listing
      (fun res h' => h' = h ∧ res = .error (.prefixMismatch none)) h := by
  have hr : r ∈ h.robots := List.mem_of_mem_filter (hone ▸ List.mem_singleton_self r)
  have hid := (h.bounds r hr).1
  have hpage : h.page filter 1 = [some (h.report r)] := by
    have hfilter : (h.robots.filter fun r => decide (1 ≤ r.id) && h.matching filter r) = [r] := by
      rw [← List.filter_filter, hone, List.filter_eq_self.mpr fun x hx => ?_]
      rw [List.mem_singleton.mp hx]
      exact decide_eq_true hid
    rw [Harbor.page, hfilter]
    rfl
  have hnot : ¬ (h.report r).id ≤ 0 := not_le.mpr hid
  rw [list, show maxPages = 999 + 1 from rfl, listFrom, Sdk.listRobot_bind]
  refine ⟨⟨_, _, rfl⟩, fun res h' hs => ?_⟩
  obtain ⟨rfl, rfl⟩ := Prod.mk.inj
    (show (Except.ok (h.page filter (int64 (0 + 1))), h) = (res, h') from hs)
  rw [show int64 (0 + 1) = 1 by decide, hpage]
  simp only [takePage, if_neg hnot, hread]
  exact ⟨rfl, rfl⟩

/-! ## Lookups -/

theorem matchName_seen (hu : h.Uniform) {rs : List StoredRobot} (hrs : ∀ r ∈ rs, r ∈ h.robots)
    {r : StoredRobot} (hr : r ∈ rs) : matchName (rs.map h.seen) r.name = some (h.seen r) := by
  rw [matchName, List.find?_map]
  cases hfind : rs.find? ((fun robot => decide (robot.name = r.name)) ∘ h.seen) with
  | none => exact absurd (decide_eq_true rfl) (List.find?_eq_none.mp hfind r hr)
  | some x =>
    have hname := List.find?_some hfind
    rw [hu.eq_of_name (hrs x (List.mem_of_find?_eq_some hfind)) (hrs r hr)
      (of_decide_eq_true hname)]
    rfl

theorem matchName_absent {rs : List StoredRobot} {name : GoString}
    (habsent : ∀ r ∈ rs, r.name ≠ name) : matchName (rs.map h.seen) name = none := by
  rw [matchName, List.find?_eq_none]
  intro robot hrobot
  obtain ⟨r, hr, rfl⟩ := List.mem_map.mp hrobot
  exact fun h => habsent r hr (of_decide_eq_true h)

/-- With Harbor's prefix a hit that only ends with the name tells nothing: it is found under its
own name. -/
theorem wp_checkSuffixHit_own (hu : h.Uniform) (name : GoString) (rs : List StoredRobot)
    (hrs : ∀ r ∈ rs, r ∈ h.robots) :
    (checkSuffixHit h.robotNamePrefix name (rs.map h.seen)).Wp listing
      (fun res h' => h' = h ∧ res = none) h := by
  induction rs with
  | nil => exact ⟨rfl, rfl⟩
  | cons r rs ih =>
    have hr := hrs r List.mem_cons_self
    rw [List.map_cons, checkSuffixHit]
    split_ifs with hskip
    · exact ih fun x hx => hrs x (List.mem_cons_of_mem r hx)
    · have hlist := wp_list_reads _ hu h.seen (some (h.seen r).name) fun x hx =>
        hu.fromHarborRobot (List.mem_of_mem_filter hx)
      refine Prog.wp_seq hlist fun res h' hres => ?_
      obtain ⟨rfl, rfl⟩ := hres
      have hagain : ((h'.robots.filter (h'.matching (some (h'.seen r).name))).map h'.seen).any
          (fun o => o.id = (h'.seen r).id) = true := by
        rw [List.any_eq_true]
        refine ⟨h'.seen r, List.mem_map_of_mem (List.mem_filter.mpr ⟨hr, ?_⟩), decide_eq_true rfl⟩
        rw [Harbor.matching, Bool.or_eq_true]
        exact .inr (beq_self_eq_true r.name)
      dsimp only
      rw [if_pos hagain]
      exact ⟨rfl, rfl⟩

theorem wp_getByName_own (hu : h.Uniform) (name : GoString) :
    (getByName h.robotNamePrefix name).Wp listing (fun res h' => h' = h ∧
      (∀ r ∈ h.robots, r.name = name → res = .ok (h.seen r)) ∧
      ((∀ r ∈ h.robots, r.name ≠ name) → res = .error .robotNotFound)) h := by
  have hlist (filter : Option GoString) := wp_list_reads _ hu h.seen filter fun x hx =>
    hu.fromHarborRobot (List.mem_of_mem_filter hx)
  have hmem (filter : Option GoString) : ∀ r ∈ h.robots.filter (h.matching filter), r ∈ h.robots :=
    fun r hr => List.mem_of_mem_filter hr
  refine Prog.wp_seq (hlist (some name)) fun res h₁ hres => ?_
  obtain ⟨rfl, rfl⟩ := hres
  dsimp only
  by_cases hstored : ∃ r ∈ h₁.robots, r.name = name
  · obtain ⟨r, hr, rfl⟩ := hstored
    have hlisted : r ∈ h₁.robots.filter (h₁.matching (some r.name)) := by
      rw [List.mem_filter, Harbor.matching, Bool.or_eq_true]
      exact ⟨hr, .inr (beq_self_eq_true r.name)⟩
    rw [matchName_seen hu (hmem _) hlisted]
    refine ⟨rfl, fun x hx hname => ?_, fun habsent => absurd rfl (habsent r hr)⟩
    rw [hu.eq_of_name hx hr hname]
  · have habsent : ∀ r ∈ h₁.robots, r.name ≠ name := fun r hr hname => hstored ⟨r, hr, hname⟩
    rw [matchName_absent fun r hr => habsent r (hmem _ r hr)]
    refine Prog.wp_seq (wp_checkSuffixHit_own hu name _ (hmem _)) fun res h₂ hres => ?_
    obtain ⟨rfl, rfl⟩ := hres
    refine Prog.wp_seq (hlist none) fun res h₃ hres => ?_
    obtain ⟨rfl, rfl⟩ := hres
    dsimp only
    rw [matchName_absent fun r hr => habsent r (hmem _ r hr)]
    exact ⟨rfl, fun r hr hname => absurd hname (habsent r hr), fun _ => rfl⟩

theorem wp_list_elsewhere (hu : h.Uniform) (hhonours : h.honoursFilter = true) {r : StoredRobot}
    (hr : r ∈ h.robots) {name : GoString} (hname : name ≠ r.name) :
    (list robotPrefix (some name)).Wp listing
      (fun res h' => h' = h ∧ (res = .error (.prefixMismatch none) ∨
        ∃ again, res = .ok again ∧ ∀ o ∈ again, o.id ≠ r.id)) h := by
  by_cases hstored : ∃ s ∈ h.robots, s.name = name
  · obtain ⟨s, hs, rfl⟩ := hstored
    have hone := hu.filter_name hhonours hs
    cases hread : fromHarborRobot robotPrefix (h.report s) with
    | none =>
      exact Prog.wp_mono (fun res h' hres => ⟨hres.1, .inl hres.2⟩) _ _
        (wp_list_mismatch _ hone hread)
    | some other =>
      have hreads := wp_list_reads robotPrefix hu (fun _ => other) (some s.name)
      rw [hone] at hreads
      refine Prog.wp_mono (fun res h' hres => ⟨hres.1, .inr ⟨_, hres.2, fun o ho => ?_⟩⟩) _ _
        (hreads fun x hx => by rw [List.mem_singleton.mp hx, hread])
      rw [List.map_singleton, List.mem_singleton] at ho
      rw [ho, (fromHarborRobot_some _ _ _ hread).1]
      exact fun hsame => hname (congrArg (·.name) (Harbor.eq_of_id hs hr hsame))
  · have hempty := Harbor.Uniform.filter_absent hhonours fun s hs hsname => hstored ⟨s, hs, hsname⟩
    have hreads := wp_list_reads robotPrefix hu h.seen (some name)
    rw [hempty] at hreads
    exact Prog.wp_mono (fun res h' hres => ⟨hres.1, .inr ⟨_, hres.2, nofun⟩⟩) _ _ (hreads nofun)

/-- With another prefix than Harbor's the hit is the robot itself, under another name. -/
theorem wp_checkSuffixHit_other (hu : h.Uniform) (hhonours : h.honoursFilter = true)
    (hne : h.robotNamePrefix ≠ robotPrefix) {r : StoredRobot} (hr : r ∈ h.robots) {robot : Robot}
    (hread : fromHarborRobot robotPrefix (h.report r) = some robot) :
    (checkSuffixHit robotPrefix r.name [robot]).Wp listing
      (fun res h' => h' = h ∧ res = some (.prefixMismatch none)) h := by
  obtain ⟨hwire, -, hname⟩ := hu.name_of_other_prefix hr hne hread
  have hid : robot.id = r.id := (fromHarborRobot_some _ _ _ hread).1
  rw [checkSuffixHit, if_neg ?_]
  · refine Prog.wp_seq (wp_list_elsewhere hu hhonours hr hname) fun res h' hres => ?_
    obtain ⟨rfl, rfl | ⟨again, rfl, hother⟩⟩ := hres
    · exact ⟨rfl, rfl⟩
    · dsimp only
      rw [if_neg ?_]
      · exact ⟨rfl, rfl⟩
      · rw [List.any_eq_true]
        rintro ⟨o, ho, hsame⟩
        exact hother o ho ((of_decide_eq_true hsame).trans hid)
  · rintro (hsame | hsuffix)
    · rw [hwire] at hsame
      exact hne (List.append_cancel_right hsame)
    · rw [hwire, (hasSuffix_iff _ _).mpr ⟨h.robotNamePrefix, rfl⟩] at hsuffix
      cases hsuffix

/-- A lookup of a robot that is there, with another prefix than Harbor's. -/
theorem wp_getByName_other (hu : h.Uniform) (hhonours : h.honoursFilter = true)
    (hne : h.robotNamePrefix ≠ robotPrefix) {r : StoredRobot} (hr : r ∈ h.robots) :
    (getByName robotPrefix r.name).Wp listing
      (fun res h' => h' = h ∧ res = .error (.prefixMismatch none)) h := by
  have hone := hu.filter_name hhonours hr
  cases hread : fromHarborRobot robotPrefix (h.report r) with
  | none =>
    refine Prog.wp_seq (wp_list_mismatch (some r.name) hone hread) fun res h' hres => ?_
    obtain ⟨rfl, rfl⟩ := hres
    exact ⟨rfl, rfl⟩
  | some robot =>
    have hname := (hu.name_of_other_prefix hr hne hread).2.2
    have hreads := wp_list_reads robotPrefix hu (fun _ => robot) (some r.name)
    rw [hone] at hreads
    refine Prog.wp_seq (hreads fun x hx => by rw [List.mem_singleton.mp hx, hread])
      fun res h₁ hres => ?_
    obtain ⟨rfl, rfl⟩ := hres
    have hnone : matchName [robot] r.name = none := by
      rw [matchName, List.find?_cons_of_neg (by simpa using hname)]
      rfl
    dsimp only
    rw [List.map_singleton, hnone]
    refine Prog.wp_seq (wp_checkSuffixHit_other hu hhonours hne hr hread) fun res h₂ hres => ?_
    obtain ⟨rfl, rfl⟩ := hres
    exact ⟨rfl, rfl⟩

end Client

/-- On a Harbor that honours the name filter a robot that is there is found or, if Harbor's prefix
is another one, the lookup fails because of that. With Harbor's prefix a lookup is exact, whether
Harbor honours the filter or not. -/
theorem lookup_is_exact (robotPrefix name : GoString) (h : Harbor) (hu : h.Uniform) :
    (h.honoursFilter = true → ∀ r ∈ h.robots, r.name = name →
      (h.robotNamePrefix = robotPrefix →
        ((Client.getByName robotPrefix name).exec Harbor.serve h).1 = .ok (h.seen r)) ∧
      (h.robotNamePrefix ≠ robotPrefix →
        ((Client.getByName robotPrefix name).exec Harbor.serve h).1 =
          .error (.prefixMismatch none))) ∧
    (h.robotNamePrefix = robotPrefix →
      (∀ r ∈ h.robots, r.name = name →
        ((Client.getByName robotPrefix name).exec Harbor.serve h).1 = .ok (h.seen r)) ∧
      ((∀ r ∈ h.robots, r.name ≠ name) →
        ((Client.getByName robotPrefix name).exec Harbor.serve h).1 = .error .robotNotFound)) := by
  have hown : h.robotNamePrefix = robotPrefix →
      (∀ r ∈ h.robots, r.name = name →
        ((Client.getByName robotPrefix name).exec Harbor.serve h).1 = .ok (h.seen r)) ∧
      ((∀ r ∈ h.robots, r.name ≠ name) →
        ((Client.getByName robotPrefix name).exec Harbor.serve h).1 = .error .robotNotFound) := by
    rintro rfl
    exact (Prog.wp_exec Harbor.serve (fun _ _ => rfl) _ _ h (Client.wp_getByName_own hu name)).2
  refine ⟨fun hhonours r hr hname => ⟨fun hsame => (hown hsame).1 r hr hname, fun hne => ?_⟩, hown⟩
  subst hname
  exact (Prog.wp_exec Harbor.serve (fun _ _ => rfl) _ _ h
    (Client.wp_getByName_other hu hhonours hne hr)).2

def plainRobot (id : Int) (name : GoString) : StoredRobot where
  id := id
  name := name
  editable := true
  description := []
  disable := false
  expiresAt := -1
  permissions := []
  password := []

def suffixHarbor : Harbor where
  robotNamePrefix := lit "robot$ci-"
  honoursFilter := true
  robots := [plainRobot 1 (lit "a"), plainRobot 2 (lit "ci-a")]
  nextId := 3
  issued := [[]]
  sorted := by decide
  bounds := by decide
  nextId_pos := nextId_three_pos
  nextId_le := nextId_three_le
  password_issued := by decide

/-- Harbor's prefix is the configured one and a part that a name may begin with. -/
theorem lookup_is_exact_suffix :
    ((Client.getByName (lit "robot$") (lit "a")).exec Harbor.serve suffixHarbor).1 =
      .error (.prefixMismatch none) ∧
    ((Client.getByName (lit "robot$ci-") (lit "ci-a")).exec Harbor.serve suffixHarbor).1 =
      .ok (suffixHarbor.seen (plainRobot 2 (lit "ci-a"))) := by
  have hu : suffixHarbor.Uniform := ⟨by decide, by decide, by decide, by decide, by decide⟩
  exact ⟨((lookup_is_exact (lit "robot$") (lit "a") suffixHarbor hu).1 rfl _ List.mem_cons_self rfl).2
      (by decide),
    ((lookup_is_exact (lit "robot$ci-") (lit "ci-a") suffixHarbor hu).2 rfl).1 _
      (List.mem_cons_of_mem _ List.mem_cons_self) rfl⟩

def exhaustedHarbor : Harbor where
  robotNamePrefix := lit "robot$"
  honoursFilter := true
  robots := (List.range 99).map (fun i : Nat => plainRobot (i + 1) (List.replicate (i + 1) 97)) ++
    [plainRobot (2 ^ 63 - 1) (lit "last")]
  nextId := 2 ^ 63
  issued := [[]]
  sorted := by decide +kernel
  bounds := by decide +kernel
  nextId_pos := by decide
  nextId_le := by decide
  password_issued := by decide +kernel

/-- The id after the last one is negative, so the client refuses the second page. -/
theorem lookup_fails_after_last_id :
    (∀ r ∈ exhaustedHarbor.robots, r.editable = true ∧ robotNameRegex r.name = true ∧
      r.name ≠ lit "absent") ∧
    (exhaustedHarbor.robots.map (·.name)).Nodup ∧
    exhaustedHarbor.robots.length < maxPages * pageSize ∧
    exhaustedHarbor.robotNamePrefix = lit "robot$" ∧
    ((Client.getByName (lit "robot$") (lit "absent")).exec Harbor.serve exhaustedHarbor).1 =
      .error (.idNotIncreasing 1 (2 ^ 63 - 1)) := by
  refine ⟨by decide +kernel, by decide +kernel, by decide +kernel, rfl, by decide +kernel⟩

end HarborBridge
