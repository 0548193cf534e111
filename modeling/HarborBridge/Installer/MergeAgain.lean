import HarborBridge.Installer.EnvEffect

/-!
# Rewriting the environment file again

`mergeExtraArgs` keeps what it does not own, and its output is a fixed point: the line it wrote
reads back as the arguments it wrote.
-/

namespace HarborBridge.Installer

open GoStrings EnvParser

/-! ## The line that was written -/

theorem cut_extraArgsLine (args : List GoString) :
    cut (extraArgsLine args) 61 = some (extraArgsKey, 34 :: (join args 32 ++ [34])) := by
  have hline : extraArgsLine args = extraArgsKey ++ 61 :: (34 :: (join args 32 ++ [34])) := by
    have hquote : lit "=\"" = [61, 34] := by decide
    have hquote' : lit "\"" = [34] := by decide
    rw [extraArgsLine, hquote, hquote']
    simp
  have hkey : (61 : UInt8) ∉ extraArgsKey := by decide
  rw [hline, cut_append _ _ _ hkey]

theorem trimEnv_quoted (s : GoString) : trimEnv (34 :: (s ++ [34])) = 34 :: (s ++ [34]) := by
  have hquote : (34 : UInt8) ∉ envWhitespace := by decide
  rw [trimEnv, List.dropWhile_cons_of_neg (by simpa using hquote), ← List.cons_append]
  unfold trimRight
  rw [List.rdropWhile_concat_neg _ _ _ (by simpa using hquote)]

theorem unquoteExtraArgs_quoted {s : GoString} (hs : ∀ b ∈ s, b ∉ quotingChars) :
    unquoteExtraArgs (34 :: (s ++ [34])) = .ok s := by
  have hinner : (34 :: (s ++ [34])).tail.dropLast = s := by simp
  have hlast : (34 :: (s ++ [34])).getLast? = some 34 := by
    rw [← List.cons_append, List.getLast?_concat]
  have hnone : s.any (fun b => decide (b ∈ quotingChars)) = false := by
    rw [List.any_eq_false]
    intro b hb
    simpa using hs b hb
  have hquoted : 2 ≤ (34 :: (s ++ [34])).length ∧
      ((34 :: (s ++ [34])).head? = some 34 ∨ (34 :: (s ++ [34])).head? = some 39) ∧
      (34 :: (s ++ [34])).getLast? = (34 :: (s ++ [34])).head? := ⟨by simp, .inl rfl, hlast⟩
  simp only [unquoteExtraArgs, if_pos hquoted, hinner, hnone]
  rfl

theorem join_plain {args : List GoString} (h : ∀ x ∈ args, PlainArg x) :
    ∀ b ∈ join args 32, b ∉ quotingChars := by
  intro b hb
  rcases mem_join args 32 b hb with rfl | ⟨x, hx, hb⟩
  · decide
  · exact ((h x hx).plain b hb).1

/-- The flags are stripped and set again. -/
theorem strip_kept (args : List GoString) (binDir configFile : GoString) :
    stripCredentialProviderFlags (stripCredentialProviderFlags args ++ ourFlags binDir configFile) =
      stripCredentialProviderFlags args := by
  have hforeign : ∀ a ∈ stripFrom false args, Foreign a := fun a ha => (stripFrom_foreign false args a ha).2
  rw [stripCredentialProviderFlags, stripCredentialProviderFlags, stripFrom_append hforeign,
    stripFrom_ourFlags, List.append_nil]

theorem rewriteLine_own {a : EnvAssignment} {lines args : List GoString} (ours : List GoString)
    (hargs : ∀ x ∈ args, PlainArg x) (hone : a.first = a.last)
    (hafter : a.afterContinuedComment = false) (hline : lines[a.first]? = some (extraArgsLine args)) :
    rewriteLine a lines ours = .ok (extraArgsLine (stripCredentialProviderFlags args ++ ours)) := by
  have hget : lines.getD a.first [] = extraArgsLine args := by
    rw [List.getD_eq_getElem?_getD, hline, Option.getD_some]
  have hsplit : splitArgs (join args 32) = args := splitArgs_join fun x hx => (hargs x hx).arg
  unfold rewriteLine
  rw [if_neg (not_not.mpr hone), hafter, if_neg (by decide), hget, cut_extraArgsLine, Option.map_some,
    Option.getD_some]
  dsimp only
  rw [trimEnv_quoted, unquoteExtraArgs_quoted (join_plain hargs), ok_bind, hsplit]

/-! ## The output -/

section Output

variable {existing binDir configFile out : GoString} {all all' : List EnvAssignment}
  {args : List GoString}

theorem Output.again (h : Output existing binDir configFile out all all' args)
    (hparse : parseEnvFile out = .ok all') : mergeExtraArgs out binDir configFile = .ok out := by
  obtain ⟨a, hextra, hone, hafter, hline⟩ := h.own
  have hfilter : all'.filter (fun a => decide (a.key = extraArgsKey)) = [a] := hextra
  have hsuffix : hasSuffix out [10] = true := (hasSuffix_iff _ _).mpr ⟨_, h.ended⟩
  have hrewrite := rewriteLine_own (ourFlags binDir configFile) h.plain hone hafter hline
  -- the arguments on the line are the ones that are written again
  have hsame : stripCredentialProviderFlags args ++ ourFlags binDir configFile = args := by
    rw [h.args_eq, strip_kept]
  rw [hsame] at hrewrite
  have hset : (contentLines out).set a.first (extraArgsLine args) = contentLines out := by
    obtain ⟨hlt, hget⟩ := List.getElem?_eq_some_iff.mp hline
    rw [← hget, List.set_getElem_self]
  unfold mergeExtraArgs
  rw [hparse, ok_bind]
  simp only [hfilter]
  have hours : [flagBinDir ++ [61] ++ binDir, flagConfigFile ++ [61] ++ configFile] =
      ourFlags binDir configFile := rfl
  rw [hours, hrewrite, ok_bind, if_neg (by simp [hsuffix]), hset, ← h.ended]

/-- The rewrite keeps the operator's arguments, the other assignments and the other lines, and is
done once and for all. -/
theorem mergeExtraArgs_faithful (hbin : validNodePath binDir = true)
    (hconfig : validNodePath configFile = true)
    (h : mergeExtraArgs existing binDir configFile = .ok out) :
    ∃ all all' a kept, parseEnvFile existing = .ok all ∧ parseEnvFile out = .ok all' ∧
      extraAssignments all' = [a] ∧ Stripped (operatorArgs all) kept ∧
      splitArgs a.value = kept ++ ourFlags binDir configFile ∧ others all' = others all ∧
      LinesKept existing all (extraArgsLine (kept ++ ourFlags binDir configFile)) (contentLines out) ∧
      out = join (contentLines out) 10 ++ [10] ∧ mergeExtraArgs out binDir configFile = .ok out := by
  obtain ⟨all, all', args, hparse, hparse', hout⟩ := mergeExtraArgs_spec hbin hconfig h
  obtain ⟨a, hextra, -⟩ := hout.own
  have hvalue : a.value = join args 32 := by
    have hextras : (extraAssignments all').map (·.value) = [join args 32] := hout.merged.extras
    rw [hextra] at hextras
    exact List.singleton_inj.mp hextras
  have hsplit : splitArgs a.value = args := by
    rw [hvalue]
    exact splitArgs_join fun x hx => (hout.plain x hx).arg
  refine ⟨all, all', a, stripCredentialProviderFlags (operatorArgs all), hparse, hparse', hextra,
    stripped_strip _, ?_, hout.merged.others, ?_, hout.ended, hout.again hparse'⟩
  · rw [hsplit, hout.args_eq]
  · rw [← hout.args_eq]
    exact hout.kept

end Output

/-- The two lines that an earlier installer left become one. -/
theorem mergeExtraArgs_faithful_two_lines : ∃ out,
    mergeExtraArgs (lit ("TZ=UTC\nKUBELET_EXTRA_ARGS = --v=2\n# c\nKUBELET_EXTRA_ARGS=\"" ++
      "--image-credential-provider-bin-dir=/b --image-credential-provider-config=/c\"\n"))
      (lit "/opt/bin") (lit "/opt/p.yaml") = .ok out ∧
    mergeExtraArgs out (lit "/opt/bin") (lit "/opt/p.yaml") = .ok out := by
  have hmerge : mergeExtraArgs (lit ("TZ=UTC\nKUBELET_EXTRA_ARGS = --v=2\n# c\nKUBELET_EXTRA_ARGS=\"" ++
      "--image-credential-provider-bin-dir=/b --image-credential-provider-config=/c\"\n"))
      (lit "/opt/bin") (lit "/opt/p.yaml") =
      .ok (lit ("TZ=UTC\nKUBELET_EXTRA_ARGS=\"--v=2 --image-credential-provider-bin-dir=/opt/bin " ++
        "--image-credential-provider-config=/opt/p.yaml\"\n# c\n")) := by decide +kernel
  obtain ⟨-, -, -, -, -, -, -, -, -, -, -, -, hagain⟩ :=
    mergeExtraArgs_faithful (by decide +kernel) (by decide +kernel) hmerge
  exact ⟨_, hmerge, hagain⟩

end HarborBridge.Installer
