import Mathlib.Tactic.Common
import MessageSchema.Command.FileTree
import MessageSchema.Proofs.Except

/-!
# What stands at a path

`FileTree.at? t path`: what a path leads to. A path leads to the same location for as long as the
directories on its way stand (`follow_of_keepsDirectories`).

- **Putting a text in its place** (`writeText_eq_ok`): the path then leads to the text
  (`at?_writeText`), and nothing has changed if the text stood there before (`at?_writeText_same`).
- **Making directories** (`Extends`): everything stays that stood somewhere, though a path that led
  nowhere may now lead to something.
-/

namespace MessageSchema.Command

/-- A text as it stands in a file. -/
def Node.ofText (text : String) : Node :=
  .file text.toUTF8.data.toList

theorem Node.ofText_injective : Function.Injective Node.ofText := by
  intro text other h
  have hbytes : text.toUTF8.data.toList = other.toUTF8.data.toList := Node.file.inj h
  exact String.toByteArray_inj.mp (ByteArray.ext (Array.toList_inj.mp hbytes))

namespace FileTree

/-- What stands at the location that a path leads to. -/
def at? (t : FileTree) (path : String) : Option Node :=
  match t.locate path with
  | .ok p => t.node? p
  | .error _ => none

variable {t t' : FileTree} {p q : Location} {path text : String} {node : Node}
  {names : List String}

/-- What stands at a path is the node at the place that the path leads to. -/
theorem at?_of_locate (h : t.locate path = .ok p) : t.at? path = t.node? p := by
  rw [at?, h]

theorem exists_locate_of_at? (h : t.at? path = some node) :
    ∃ p, t.locate path = .ok p ∧ t.node? p = some node := by
  unfold at? at h
  split at h
  · exact ⟨_, by assumption, h⟩
  · cases h

/-! ## Nodes -/

theorem lookup_put (nodes : List (Location × Node)) (p q : Location) (node : Node) :
    (nodes.filter (·.1 != p) ++ [(p, node)]).lookup q =
      if q = p then some node else nodes.lookup q := by
  induction nodes with
  | nil =>
    by_cases hq : q = p
    · simp [hq]
    · simp [List.lookup_cons, beq_false_of_ne hq, hq]
  | cons entry nodes ih =>
    obtain ⟨r, other⟩ := entry
    by_cases hr : r = p
    · subst hr
      rw [List.filter_cons_of_neg (by simp), ih]
      by_cases hq : q = r
      · simp [hq]
      · simp [List.lookup_cons, beq_false_of_ne hq]
    · rw [List.filter_cons_of_pos (by simpa using hr), List.cons_append]
      by_cases hq : q = r
      · subst hq
        simp [hr]
      · simp [List.lookup_cons, beq_false_of_ne hq, ih]

/-- A node that is put in its place stands there, and every other place has the node that it had. -/
theorem node?_put (hp : p ≠ []) (t : FileTree) (q : Location) (node : Node) :
    (t.put p node).node? q = if q = p then some node else t.node? q := by
  by_cases hq : q = []
  · subst hq
    simp [node?, hp.symm]
  · simp only [node?, put, List.isEmpty_iff, hq, if_false]
    exact lookup_put t.nodes p q node

theorem ne_nil_of_node? (h : t.node? p ≠ some .directory) : p ≠ [] := by
  rintro rfl
  exact h rfl

/-! ## Following paths -/

/-- Every directory of the first tree is one of the second, and both begin their paths alike. -/
structure KeepsDirectories (t t' : FileTree) : Prop where
  workingDirectory : t'.workingDirectory = t.workingDirectory
  directory : ∀ p, t.node? p = some .directory → t'.node? p = some .directory

theorem follow_of_keepsDirectories (h : KeepsDirectories t t')
    (hfollow : t.follow p names = .ok q) : t'.follow p names = .ok q := by
  induction names generalizing p with
  | nil => exact hfollow
  | cons name names ih =>
    unfold follow at hfollow ⊢
    split at hfollow
    · cases hfollow
    · cases hfollow
    · rename_i hdirectory
      rw [h.directory p hdirectory]
      dsimp only
      split at hfollow
      · cases hfollow
      · rename_i hlength
        rw [if_neg hlength]
        exact ih hfollow

/-- A path still leads where it led to, as long as no directory has gone. -/
theorem locateBy_of_keepsDirectories (h : KeepsDirectories t t')
    (hlocate : t.locateBy path names = .ok q) : t'.locateBy path names = .ok q := by
  unfold locateBy at hlocate ⊢
  split at hlocate
  · cases hlocate
  rename_i hcharacters
  split at hlocate
  · cases hlocate
  rename_i hempty
  split at hlocate
  · cases hlocate
  rename_i hlength
  rw [if_neg hcharacters, if_neg hempty, if_neg hlength, h.workingDirectory]
  exact follow_of_keepsDirectories h hlocate

/-- Where names lead depends on nothing but the nodes. -/
theorem follow_congr (hnodes : ∀ p, t'.node? p = t.node? p) (p : Location) (names : List String) :
    t'.follow p names = t.follow p names := by
  induction names generalizing p with
  | nil => rfl
  | cons name names ih =>
    unfold follow
    simp only [hnodes, ih]

/-- Trees with the same nodes have the same at every path. -/
theorem at?_congr (hnodes : ∀ p, t'.node? p = t.node? p)
    (hdirectory : t'.workingDirectory = t.workingDirectory) (path : String) :
    t'.at? path = t.at? path := by
  have hlocate : t'.locate path = t.locate path := by
    simp only [locate, locateBy, hdirectory, follow_congr hnodes]
  simp only [at?, hlocate, hnodes]

/-! ## Putting texts in their places -/

theorem slashParts_ne_nil (cs : List Char) : slashParts cs ≠ [] := by
  cases cs with
  | nil => simp [slashParts]
  | cons c cs =>
    rw [slashParts]
    split
    · simp
    · split <;> simp

theorem getLast?_slashParts {cs : List Char} (hne : cs ≠ []) (h : cs.getLast? ≠ some '/') :
    (slashParts cs).getLast? ≠ some [] := by
  induction cs with
  | nil => exact absurd rfl hne
  | cons c cs ih =>
    -- a character in front makes the first part longer or begins one; neither leaves an empty last
    rcases hrest : cs with _ | ⟨d, ds⟩
    · subst hrest
      have hc : c ≠ '/' := by simpa using h
      simp [slashParts, hc]
    · rw [← hrest]
      have hcs : cs ≠ [] := by simp [hrest]
      have hlast := ih hcs (by rwa [hrest, List.getLast?_cons_cons, ← hrest] at h)
      rw [slashParts]
      split
      · rwa [List.getLast?_cons_of_ne_nil (slashParts_ne_nil cs)]
      · split
        · exact absurd ‹slashParts cs = []› (slashParts_ne_nil cs)
        · rename_i part parts hparts
          rw [hparts] at hlast
          cases parts <;> simp_all

/-- A path that does not end in a slash is the same with the slashes at its end and without. -/
theorem locateEntry_eq_locate (h : path.toList.getLast? ≠ some '/') (t : FileTree) :
    t.locateEntry path = t.locate path := by
  by_cases hempty : path.toList = []
  · obtain rfl : path = "" := String.toList_injective hempty
    rfl
  · have hsteps : ((stepsOf path).reverse.dropWhile String.isEmpty).reverse = stepsOf path := by
      have hlast := getLast?_slashParts hempty h
      rw [← List.reverse_inj, List.reverse_reverse]
      rcases hreverse : (stepsOf path).reverse with _ | ⟨step, steps⟩
      · rfl
      · refine List.dropWhile_cons_of_neg fun hstep => hlast ?_
        have hlastStep : (slashParts path.toList).getLast?.map String.ofList = some step := by
          rw [← List.getLast?_map, ← List.head?_reverse]
          exact congrArg List.head? hreverse
        obtain ⟨part, hpart, rfl⟩ := Option.map_eq_some_iff.mp hlastStep
        rw [hpart, String.ofList_eq_empty_iff.mp (String.isEmpty_iff.mp hstep)]
    rw [locateEntry, hsteps, locate]

/-- A text can be written just at the paths that lead to a place without a directory and do not end
in a slash; then the tree has it there as a file. -/
theorem writeText_eq_ok : t.writeText path text = .ok t' ↔
    ∃ p, t.locate path = .ok p ∧ t.node? p ≠ some .directory ∧
      path.toList.getLast? ≠ some '/' ∧ t' = t.put p (.ofText text) := by
  rw [writeText, bind_eq_ok]
  by_cases hslash : path.toList.getLast? = some '/'
  · simp only [hslash, if_true, ne_eq, not_true_eq_false, false_and, and_false, exists_false,
      iff_false]
    rintro ⟨p, -, h⟩
    split at h <;> cases h
  · rw [locateEntry_eq_locate hslash]
    refine exists_congr fun p => and_congr_right fun _ => ?_
    split
    · rename_i hdirectory
      simp [hdirectory]
    · rename_i hdirectory
      rw [if_neg hslash, Except.ok.injEq, eq_comm, and_iff_right hdirectory, and_iff_right hslash]
      rfl

/-- A node put anywhere but over a directory leaves all directories. -/
theorem keepsDirectories_put (hp : t.node? p ≠ some .directory) :
    KeepsDirectories t (t.put p node) where
  workingDirectory := rfl
  directory q hq := by
    rw [node?_put (ne_nil_of_node? hp), if_neg, hq]
    rintro rfl
    exact hp hq

/-- A file makes no directory. -/
theorem keepsDirectories_of_put (hp : t.node? p ≠ some .directory) (hnode : node ≠ .directory) :
    KeepsDirectories (t.put p node) t where
  workingDirectory := rfl
  directory q hq := by
    rw [node?_put (ne_nil_of_node? hp)] at hq
    split at hq
    · exact absurd (Option.some.inj hq) hnode
    · exact hq

/-- A text that was written stands at its path. -/
theorem at?_writeText (h : t.writeText path text = .ok t') :
    t'.at? path = some (.ofText text) := by
  obtain ⟨p, hlocate, hp, -, rfl⟩ := writeText_eq_ok.mp h
  have hkeeps : KeepsDirectories t (t.put p (.ofText text)) := keepsDirectories_put hp
  rw [at?_of_locate (locateBy_of_keepsDirectories hkeeps hlocate),
    node?_put (ne_nil_of_node? hp), if_pos rfl]

/-- A text that stands at its path already changes nothing at any path. -/
theorem at?_writeText_same (h : t.writeText path text = .ok t')
    (hsame : t.at? path = some (.ofText text)) (other : String) : t'.at? other = t.at? other := by
  obtain ⟨p, hlocate, hp, -, rfl⟩ := writeText_eq_ok.mp h
  rw [at?_of_locate hlocate] at hsame
  have hnodes : ∀ q, (t.put p (.ofText text)).node? q = t.node? q := fun q => by
    rw [node?_put (ne_nil_of_node? hp)]
    split
    · rename_i hq
      rw [hq, hsame]
    · rfl
  exact at?_congr hnodes rfl other

/-! ## Making directories -/

/-- Whatever stands in the first tree stands in the second, and both begin their paths alike. -/
structure Extends (t t' : FileTree) : Prop where
  workingDirectory : t'.workingDirectory = t.workingDirectory
  node : ∀ p node, t.node? p = some node → t'.node? p = some node

namespace Extends

theorem refl (t : FileTree) : Extends t t :=
  ⟨rfl, fun _ _ => id⟩

theorem trans {t'' : FileTree} (h : Extends t t') (h' : Extends t' t'') : Extends t t'' :=
  ⟨h'.workingDirectory.trans h.workingDirectory, fun p n hp => h'.node p n (h.node p n hp)⟩

theorem keepsDirectories (h : Extends t t') : KeepsDirectories t t' :=
  ⟨h.workingDirectory, fun p => h.node p .directory⟩

/-- What stands at a path is still there. -/
theorem at? (h : Extends t t') (hpath : t.at? path = some node) : t'.at? path = some node := by
  obtain ⟨p, hlocate, hp⟩ := exists_locate_of_at? hpath
  rw [at?_of_locate (locateBy_of_keepsDirectories h.keepsDirectories hlocate)]
  exact h.node p node hp

end Extends

/-- Making a directory takes nothing away. -/
theorem extends_makeDirectory (h : t.makeDirectory path = .ok t') : Extends t t' := by
  rw [makeDirectory, bind_eq_ok] at h
  obtain ⟨p, -, h⟩ := h
  split at h
  · cases h
  · rename_i hnone
    cases h
    refine ⟨rfl, fun q node hq => ?_⟩
    have hp : t.node? p ≠ some .directory := by simp [hnone]
    rw [node?_put (ne_nil_of_node? hp), if_neg, hq]
    rintro rfl
    rw [hnone] at hq
    cases hq

end FileTree

end MessageSchema.Command
