import HarborBridge.Installer.Settings

/-!
# Where the files of an install are

Package main of the installer, names.go: a file of an install is a name in one of its directories.
Two such paths are the same only when the directory and the name are, and no two installs have a
name in common.
-/

namespace HarborBridge.Installer

open GoStrings DnsNames

/-! ## Joining a directory and a name -/

theorem cleanFrom_append (done l m : List GoString) :
    cleanFrom done (l ++ m) = cleanFrom (cleanFrom done l).reverse m := by
  induction l generalizing done with
  | nil => simp [cleanFrom]
  | cons c l ih =>
    rw [List.cons_append, cleanFrom, cleanFrom]
    split_ifs
    · exact ih done
    · exact ih done.tail
    · exact ih (c :: done)

structure BaseName (name : GoString) : Prop where
  no_slash : 47 ∉ name
  ne_nil : name ≠ []
  ne_dot : name ≠ lit "."
  ne_dotdot : name ≠ lit ".."

theorem components_join (dir : GoString) {name : GoString} (h : BaseName name) :
    components (dir ++ 47 :: name) = components dir ++ [name] := by
  have hsplit : split (dir ++ 47 :: name) 47 = split dir 47 ++ [name] := by
    rw [split, List.splitOn_append_cons_self, List.splitOn_eq_singleton h.no_slash]
    rfl
  have hlast : ∀ done : List GoString, cleanFrom done [name] = done.reverse ++ [name] := by
    intro done
    rw [cleanFrom, if_neg, if_neg h.ne_dotdot, cleanFrom, List.reverse_cons]
    rintro (hnil | hdot)
    · exact h.ne_nil hnil
    · exact h.ne_dot hdot
  rw [components, hsplit, cleanFrom_append, hlast, List.reverse_reverse]
  rfl

theorem join_concat (l : List GoString) (s : GoString) :
    join (l ++ [s]) 47 = if l = [] then s else join l 47 ++ 47 :: s := by
  induction l with
  | nil => simp [join]
  | cons a l ih =>
    rw [if_neg (List.cons_ne_nil a l)]
    cases l with
    | nil => simp [join]
    | cons b l =>
      rw [if_neg (List.cons_ne_nil b l)] at ih
      have hcons : ∀ m : List GoString, join (a :: b :: m) 47 = a ++ 47 :: join (b :: m) 47 := by
        intro m
        simp [join]
      calc join ((a :: b :: l) ++ [s]) 47
          = a ++ 47 :: join ((b :: l) ++ [s]) 47 := hcons (l ++ [s])
        _ = a ++ 47 :: (join (b :: l) 47 ++ 47 :: s) := by rw [ih]
        _ = join (a :: b :: l) 47 ++ 47 :: s := by
            rw [hcons l]
            simp

theorem pathJoin_ends (dir : GoString) {name : GoString} (h : BaseName name) :
    ∃ above, pathJoin dir name = above ++ 47 :: name := by
  rw [pathJoin, clean, components_join dir h, join_concat]
  split_ifs
  · exact ⟨[], rfl⟩
  · exact ⟨47 :: join (components dir) 47, rfl⟩

theorem pathJoin_valid {dir name : GoString} (hdir : validNodePath dir = true) (h : BaseName name) :
    pathJoin dir name = dir ++ 47 :: name := by
  simp only [validNodePath, Bool.and_eq_true, beq_iff_eq] at hdir
  obtain ⟨⟨-, hclean⟩, hchars⟩ := hdir
  have hne : components dir ≠ [] := by
    intro hnil
    -- only the root has no components, and it is no valid path
    rw [clean, hnil] at hclean
    rw [← hclean] at hchars
    exact absurd hchars (by decide)
  rw [pathJoin, clean, components_join dir h, join_concat, if_neg hne, ← List.cons_append]
  exact congrArg (· ++ 47 :: name) hclean

/-- A text is split at the last of its separators in one way only. -/
theorem last_inj {c : UInt8} {a b s t : GoString} (hs : c ∉ s) (ht : c ∉ t)
    (h : a ++ c :: s = b ++ c :: t) : a = b ∧ s = t := by
  have hrev := congrArg List.reverse h
  simp only [List.reverse_append, List.reverse_cons, List.append_assoc, List.singleton_append] at hrev
  have hcut := congrArg (fun r => cut r c) hrev
  rw [cut_append _ _ _ (by simpa using hs), cut_append _ _ _ (by simpa using ht)] at hcut
  simp only [Option.some.injEq, Prod.mk.injEq, List.reverse_inj] at hcut
  exact ⟨hcut.2, hcut.1⟩

/-- Files in valid directories are the same only when their names are. -/
theorem pathJoin_base {dir dir' name name' : GoString} (h : BaseName name) (h' : BaseName name')
    (heq : pathJoin dir name = pathJoin dir' name') : name = name' := by
  obtain ⟨above, hjoin⟩ := pathJoin_ends dir h
  obtain ⟨above', hjoin'⟩ := pathJoin_ends dir' h'
  rw [hjoin, hjoin'] at heq
  exact (last_inj h.no_slash h'.no_slash heq).2

/-! ## Names with an extension -/

def Extension (e : GoString) : Prop := e = [] ∨ ∃ r, e = 46 :: r

theorem stem_inj {s t e f : GoString} (hs : 46 ∉ s) (ht : 46 ∉ t) (he : Extension e) (hf : Extension f)
    (h : s ++ e = t ++ f) : s = t ∧ e = f := by
  induction s generalizing t with
  | nil =>
    cases t with
    | nil => exact ⟨rfl, h⟩
    | cons b t =>
      rcases he with rfl | ⟨r, rfl⟩
      · simp at h
      · simp only [List.nil_append, List.cons_append, List.cons.injEq] at h
        exact absurd h.1 fun hb => ht (hb ▸ List.mem_cons_self)
  | cons a s ih =>
    cases t with
    | nil =>
      rcases hf with rfl | ⟨r, rfl⟩
      · simp at h
      · simp only [List.nil_append, List.cons_append, List.cons.injEq] at h
        exact absurd h.1 fun ha => hs (ha ▸ List.mem_cons_self)
    | cons b t =>
      rw [List.cons_append, List.cons_append, List.cons.injEq] at h
      rw [List.mem_cons, not_or] at hs ht
      obtain ⟨hst, hef⟩ := ih hs.2 ht.2 h.2
      exact ⟨by rw [h.1, hst], hef⟩

theorem dnsLabel_of_valid {name : GoString} (h : validProviderName name = true) : DnsLabel name := by
  simp only [validProviderName, Bool.and_eq_true, decide_eq_true_eq] at h
  exact h.2

theorem valid_no_dot {name : GoString} (h : validProviderName name = true) : 46 ∉ name :=
  (dnsLabel_of_valid h).not_mem 46 (by decide)

theorem valid_baseName {name e : GoString} (h : validProviderName name = true) (hext : Extension e)
    (he : 47 ∉ e) : BaseName (name ++ e) where
  no_slash := by
    rw [List.mem_append, not_or]
    exact ⟨(dnsLabel_of_valid h).not_mem 47 (by decide), he⟩
  ne_nil := fun hnil => (dnsLabel_of_valid h).ne_nil (List.append_eq_nil_iff.mp hnil).1
  ne_dot := fun heq => by
    obtain ⟨hname, -⟩ := stem_inj (t := []) (valid_no_dot h) (by simp) hext (.inr ⟨[], rfl⟩) heq
    exact (dnsLabel_of_valid h).ne_nil hname
  ne_dotdot := fun heq => by
    obtain ⟨hname, -⟩ := stem_inj (t := []) (valid_no_dot h) (by simp) hext (.inr ⟨lit ".", rfl⟩) heq
    exact (dnsLabel_of_valid h).ne_nil hname

theorem configFileName_baseName : BaseName configFileName := ⟨by decide, by decide, by decide, by decide⟩

end HarborBridge.Installer
