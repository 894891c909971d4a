import MessageSchema.Command.Run
import MessageSchema.Proofs.Command.FileTree
import MessageSchema.Proofs.Generated.Outcome

/-!
# Writes that fail

The units of a protocol are written into a directory of a file tree on which every operation may
also fail for reasons of the system (`Faults`). `LeavesTargets` says that a write that fails leaves
what stood at the path of each unit. Main statement: `leavesTargets_iff`.

- **Staging** (`stageUnits_eq`): nothing in the tree changes, and it is only gone through if no unit
  would replace a directory.
- **Putting in place** (`placeUnits_cons`): unit by unit. The paths of the units were never compared
  with what is needed to put a unit there, so the source can fail to be put in its place when the
  header already is (`Halfway`). That is the only way in which a unit is left behind.
- **The output directory** (`Uncovers`): it may be made before the write fails, and it stays. A unit
  whose name leads back out of it, or nowhere from it, then has something at its path.
-/

namespace MessageSchema.Command

open Output Generated

/-- Reasons of the system for which an operation on a tree fails. -/
structure Faults where
  making : FileTree → (path : String) → Option FileError := fun _ _ => none
  staging : FileTree → (directory text : String) → Option FileError := fun _ _ _ => none
  placing : FileTree → (path : String) → Option FileError := fun _ _ => none

namespace FileTree

/-- An operation that fails if there is a reason to, and else is carried out. -/
def orFault {α : Type} (fault : FileTree → Option FileError)
    (operation : StateM FileTree (Except FileError α)) : StateM FileTree (Except FileError α) :=
  fun t =>
    match fault t with
    | some e => (.error e, t)
    | none => operation t

section OrFault

variable {α : Type} (fault : FileTree → Option FileError) {t : FileTree}

theorem orFault_of_none (h : fault t = none)
    (operation : StateM FileTree (Except FileError α)) :
    orFault fault operation t = operation t := by
  rw [orFault, h]

theorem orFault_of_some {e : FileError} (h : fault t = some e)
    (operation : StateM FileTree (Except FileError α)) :
    orFault fault operation t = (.error e, t) := by
  rw [orFault, h]

end OrFault

/-- The operations of a file system on a tree, with faults. -/
def faultySystem (faults : Faults) : FileSystem (StateM FileTree) String :=
  { fileSystem with
    makeDirectory := fun path => orFault (faults.making · path) (fileSystem.makeDirectory path)
    stage := fun directory text =>
      orFault (faults.staging · directory text) (fileSystem.stage directory text)
    putInPlace := fun text path =>
      orFault (faults.placing · path) (fileSystem.putInPlace text path) }

example : faultySystem {} = fileSystem := rfl

end FileTree

section Writing

variable (faults : Faults) (t : FileTree) (directory : String)

/-- The path that a unit is written to. -/
def targetOf (unit : OutputUnit) : String :=
  joinPath directory unit.name

/-- What comes of writing units, and the tree then. -/
def written (units : List OutputUnit) : Except Failure Unit × FileTree :=
  writeUnits (FileTree.faultySystem faults) directory units t

/-- A write that fails leaves what stood at the paths of the units. -/
def LeavesTargets (units : List OutputUnit) : Prop :=
  ∀ failure after, written faults t directory units = (.error failure, after) →
    ∀ u ∈ units, after.at? (targetOf directory u) = t.at? (targetOf directory u)

/-! ## The output directory -/

/-- What comes of making the output directory, and the tree then. -/
def made : Except FileError Unit × FileTree :=
  (FileTree.faultySystem faults).createDirectories directory t

variable {faults t directory}

/-- An operation that only adds to the tree. -/
def Extending {α : Type} (operation : StateM FileTree α) : Prop :=
  ∀ tree : FileTree, tree.Extends (operation tree).2

namespace Extending

variable {α β : Type}

theorem of_pure (a : α) : Extending (pure a) :=
  FileTree.Extends.refl

/-- Operations one after the other take nothing away if none of them does. -/
theorem of_bind {x : StateM FileTree α} {f : α → StateM FileTree β} (hx : Extending x)
    (hf : ∀ a, Extending (f a)) : Extending (x >>= f) :=
  fun t => (hx t).trans (hf _ _)

theorem of_orFault {fault : FileTree → Option FileError}
    {operation : StateM FileTree (Except FileError α)} (h : Extending operation) :
    Extending (FileTree.orFault fault operation) := by
  intro tree
  rcases hfault : fault tree with _ | e
  · rw [FileTree.orFault_of_none fault hfault]
    exact h tree
  · rw [FileTree.orFault_of_some fault hfault]
    exact .refl tree

end Extending

/-- Making a directory takes nothing away, with a fault in its way or not. -/
theorem extending_makeDirectory (path : String) :
    Extending ((FileTree.faultySystem faults).makeDirectory path) := by
  refine .of_orFault fun tree => ?_
  show tree.Extends (FileTree.update (·.makeDirectory path) tree).2
  unfold FileTree.update
  split
  · exact FileTree.extends_makeDirectory ‹_›
  · exact .refl tree

theorem extending_acceptDirectory (path : String) (outcome : Except FileError Unit) :
    Extending ((FileTree.faultySystem faults).acceptDirectory path outcome) := by
  cases outcome with
  | ok => exact .of_pure _
  | error e =>
    refine .of_bind FileTree.Extends.refl fun stands => ?_
    split
    · exact .of_pure _
    · exact .of_pure _

/-- Making a directory with those above it takes nothing away. -/
theorem extending_createFirst (paths : List String) :
    Extending ((FileTree.faultySystem faults).createFirst paths) := by
  induction paths with
  | nil => exact .of_pure _
  | cons path above ih =>
    unfold FileSystem.createFirst
    refine .of_bind (extending_makeDirectory path) fun outcome => ?_
    split
    · refine .of_bind ih fun outcome => ?_
      split
      · exact .of_pure _
      · exact .of_bind (extending_makeDirectory path) (extending_acceptDirectory path)
    · exact extending_acceptDirectory path _

/-- Making the output directory only adds to the tree. -/
theorem extends_made : t.Extends (made faults t directory).2 :=
  extending_createFirst _ t

/-! ## Staging -/

/-- What a unit is staged as. -/
def stagedUnit (directory : String) (u : OutputUnit) : StagedUnit String :=
  ⟨u.text, targetOf directory u⟩

/-- A unit that can be staged. -/
structure Stageable (faults : Faults) (t : FileTree) (directory : String) (u : OutputUnit) :
    Prop where
  target : t.isDirectory (targetOf directory u) = false
  fault : faults.staging t directory u.text = none
  directory : t.isDirectory directory = true

/-- Staged texts are in no tree yet, so discarding them changes nothing. -/
theorem discardAll_eq (units : List (StagedUnit String)) (t : FileTree) :
    discardAll (FileTree.faultySystem faults) units t = ((), t) := by
  induction units with
  | nil => rfl
  | cons u units ih => exact ih

variable {t' : FileTree} {u : OutputUnit}

theorem run_bind {α β : Type} {x : StateM FileTree α} {a : α} (h : x t = (a, t'))
    (f : α → StateM FileTree β) : (x >>= f) t = f a t' := by
  show f (x t).1 (x t).2 = f a t'
  rw [h]

/-- A unit that can be staged is staged as its text, and the tree stays as it is. -/
theorem stage_eq_ok (h : Stageable faults t directory u) :
    (FileTree.faultySystem faults).stage directory u.text t = (.ok u.text, t) := by
  refine (FileTree.orFault_of_none (faults.staging · directory u.text) h.fault _).trans ?_
  show (if t.isDirectory directory then _ else _, t) = _
  rw [if_pos h.directory]

/-- A unit that cannot be staged ends in an error, and the tree stays as it is. -/
theorem stage_eq_error (htarget : t.isDirectory (targetOf directory u) = false)
    (h : ¬ Stageable faults t directory u) :
    ∃ e, (FileTree.faultySystem faults).stage directory u.text t = (.error e, t) := by
  rcases hfault : faults.staging t directory u.text with _ | e
  · have hdirectory : t.isDirectory directory ≠ true :=
      fun hdirectory => h ⟨htarget, hfault, hdirectory⟩
    refine ⟨.notFound,
      (FileTree.orFault_of_none (faults.staging · directory u.text) hfault _).trans ?_⟩
    show (if t.isDirectory directory then _ else _, t) = _
    rw [if_neg hdirectory]
  · exact ⟨e, FileTree.orFault_of_some (faults.staging · directory u.text) hfault _⟩

theorem stageUnits_cons (h : Stageable faults t directory u) (staged : List (StagedUnit String))
    (units : List OutputUnit) :
    stageUnits (FileTree.faultySystem faults) directory staged (u :: units) t =
      stageUnits (FileTree.faultySystem faults) directory (staged ++ [stagedUnit directory u])
        units t := by
  rw [stageUnits]
  show (ite (t.isDirectory (targetOf directory u) = true) _ _ : StateM FileTree _) t = _
  rw [if_neg (by simp [h.target])]
  exact run_bind (stage_eq_ok h) _

theorem stageUnits_cons_error (h : ¬ Stageable faults t directory u)
    (staged : List (StagedUnit String)) (units : List OutputUnit) :
    ∃ failure, stageUnits (FileTree.faultySystem faults) directory staged (u :: units) t =
      (.error failure, t) := by
  rw [stageUnits]
  show ∃ _, (ite (t.isDirectory (targetOf directory u) = true) _ _ : StateM FileTree _) t = _
  by_cases htarget : t.isDirectory (targetOf directory u) = true
  · rw [if_pos htarget]
    exact ⟨_, run_bind (discardAll_eq _ _) _⟩
  · obtain ⟨e, hstage⟩ := stage_eq_error (by simpa using htarget) h
    rw [if_neg htarget]
    exact ⟨_, (run_bind hstage _).trans (run_bind (discardAll_eq _ _) _)⟩

/-- Units that can all be staged are staged in their order. -/
theorem stageUnits_eq_ok {units : List OutputUnit}
    (h : ∀ u ∈ units, Stageable faults t directory u) (staged : List (StagedUnit String)) :
    stageUnits (FileTree.faultySystem faults) directory staged units t =
      (.ok (staged ++ units.map (stagedUnit directory)), t) := by
  induction units generalizing staged with
  | nil => rw [List.map_nil, List.append_nil]; rfl
  | cons u units ih =>
    obtain ⟨hu, hunits⟩ := List.forall_mem_cons.mp h
    rw [stageUnits_cons hu, ih hunits, List.append_assoc]
    rfl

/-- Staging that fails leaves the tree. -/
theorem stageUnits_eq_error {units : List OutputUnit}
    (h : ¬ ∀ u ∈ units, Stageable faults t directory u) (staged : List (StagedUnit String)) :
    ∃ failure, stageUnits (FileTree.faultySystem faults) directory staged units t =
      (.error failure, t) := by
  induction units generalizing staged with
  | nil => exact absurd (fun _ hu => nomatch hu) h
  | cons u units ih =>
    by_cases hu : Stageable faults t directory u
    · rw [stageUnits_cons hu]
      exact ih (fun hunits => h (List.forall_mem_cons.mpr ⟨hu, hunits⟩)) _
    · exact stageUnits_cons_error hu staged units

/-! ## Putting in place -/

/-- The tree with a unit put in its place. -/
def put (faults : Faults) (t : FileTree) (directory : String) (u : OutputUnit) :
    Except FileError FileTree :=
  match faults.placing t (targetOf directory u) with
  | some e => .error e
  | none => t.writeText (targetOf directory u) u.text

theorem writeText_of_put (h : put faults t directory u = .ok t') :
    t.writeText (targetOf directory u) u.text = .ok t' := by
  unfold put at h
  split at h
  · cases h
  · exact h

/-- Where a unit can be put in its place, this is what the command does to the tree. -/
theorem putInPlace_eq_ok (h : put faults t directory u = .ok t') :
    (FileTree.faultySystem faults).putInPlace u.text (targetOf directory u) t = (.ok (), t') := by
  unfold put at h
  split at h
  · cases h
  · rename_i hfault
    refine (FileTree.orFault_of_none (faults.placing · (targetOf directory u)) hfault _).trans ?_
    show FileTree.update (·.writeText (targetOf directory u) u.text) t = _
    rw [FileTree.update, h]

/-- Where it cannot, the tree stays as it is. -/
theorem putInPlace_eq_error {e : FileError} (h : put faults t directory u = .error e) :
    (FileTree.faultySystem faults).putInPlace u.text (targetOf directory u) t = (.error e, t) := by
  unfold put at h
  split at h
  · rename_i hfault
    cases h
    exact FileTree.orFault_of_some (faults.placing · (targetOf directory u)) hfault _
  · rename_i hfault
    refine (FileTree.orFault_of_none (faults.placing · (targetOf directory u)) hfault _).trans ?_
    show FileTree.update (·.writeText (targetOf directory u) u.text) t = _
    rw [FileTree.update, h]

theorem placeUnits_cons (h : put faults t directory u = .ok t') (units : List OutputUnit) :
    placeUnits (FileTree.faultySystem faults) ((u :: units).map (stagedUnit directory)) t =
      placeUnits (FileTree.faultySystem faults) (units.map (stagedUnit directory)) t' :=
  run_bind (putInPlace_eq_ok h) _

theorem placeUnits_cons_error {e : FileError} (h : put faults t directory u = .error e)
    (units : List OutputUnit) :
    ∃ failure, placeUnits (FileTree.faultySystem faults)
      ((u :: units).map (stagedUnit directory)) t = (.error failure, t) :=
  ⟨_, (run_bind (putInPlace_eq_error h) _).trans (run_bind (discardAll_eq _ _) _)⟩

/-! ## Writes -/

/-- The output directory is made and all units can be staged. -/
def StagesAll (faults : Faults) (t : FileTree) (directory : String) (units : List OutputUnit) :
    Prop :=
  (made faults t directory).1 = .ok () ∧
    ∀ u ∈ units, Stageable faults (made faults t directory).2 directory u

variable {units : List OutputUnit}

/-- If every unit can be staged, a write places them in the tree with the output directory. -/
theorem written_of_stagesAll (h : StagesAll faults t directory units) :
    written faults t directory units =
      placeUnits (FileTree.faultySystem faults) (units.map (stagedUnit directory))
        (made faults t directory).2 :=
  (run_bind (Prod.ext h.1 rfl) _).trans (run_bind (stageUnits_eq_ok h.2 []) _)

/-- If some unit cannot be staged, a write fails with the output directory made and nothing else
done. -/
theorem written_of_not_stagesAll (h : ¬ StagesAll faults t directory units) :
    ∃ failure, written faults t directory units =
      (.error failure, (made faults t directory).2) := by
  rcases hmade : (made faults t directory).1 with e | _
  · exact ⟨_, run_bind (Prod.ext hmade rfl) _⟩
  · obtain ⟨failure, hstage⟩ := stageUnits_eq_error (fun hall => h ⟨hmade, hall⟩) []
    exact ⟨failure, (run_bind (Prod.ext hmade rfl) _).trans (run_bind hstage _)⟩

/-- The header is put in its place with a text that did not stand there, and then the source cannot
be put in its own. -/
def Halfway (faults : Faults) (t : FileTree) (directory : String) (units : List OutputUnit) :
    Prop :=
  ∃ header source placed, units = [header, source] ∧ StagesAll faults t directory units ∧
    put faults (made faults t directory).2 directory header = .ok placed ∧
    (∃ e, put faults placed directory source = .error e) ∧
    (made faults t directory).2.at? (targetOf directory header) ≠ some (.ofText header.text)

/-- The write fails, and making the output directory has led the path of a unit to something. -/
def Uncovers (faults : Faults) (t : FileTree) (directory : String) (units : List OutputUnit) :
    Prop :=
  (∃ failure after, written faults t directory units = (.error failure, after)) ∧
    ∃ u ∈ units, t.at? (targetOf directory u) = none ∧
      (made faults t directory).2.at? (targetOf directory u) ≠ none

/-- Units as a protocol has them: a header, and perhaps a source behind it. -/
theorem units_cases {s : Settings} {p : Protocol} {sourceName : String}
    (h : generate s p sourceName = .ok units) :
    (∃ header, units = [header]) ∨ ∃ header source, units = [header, source] := by
  obtain ⟨-, -, rfl⟩ := (generate_eq_ok s p sourceName units).mp h
  unfold unitsOfProtocol
  split
  · exact .inl ⟨_, rfl⟩
  · exact .inr ⟨_, _, rfl⟩

/-- A write that fails leaves the tree that the output directory was made in, or it has put the
header in its place and not the source. -/
theorem written_eq_error
    (hunits : (∃ header, units = [header]) ∨ ∃ header source, units = [header, source])
    {failure : Failure} {after : FileTree}
    (h : written faults t directory units = (.error failure, after)) :
    after = (made faults t directory).2 ∨
      ∃ header source, units = [header, source] ∧ StagesAll faults t directory units ∧
        put faults (made faults t directory).2 directory header = .ok after ∧
        ∃ e, put faults after directory source = .error e := by
  by_cases hstages : StagesAll faults t directory units
  · rw [written_of_stagesAll hstages] at h
    obtain ⟨header, rest, rfl⟩ : ∃ header rest, units = header :: rest := by
      obtain ⟨header, rfl⟩ | ⟨header, source, rfl⟩ := hunits <;> exact ⟨_, _, rfl⟩
    rcases hheader : put faults (made faults t directory).2 directory header with e | placed
    · obtain ⟨_, hplace⟩ := placeUnits_cons_error hheader rest
      exact .inl (Prod.mk.inj (h.symm.trans hplace)).2
    · rw [placeUnits_cons hheader] at h
      obtain ⟨_, hone⟩ | ⟨_, source, htwo⟩ := hunits
      · cases hone
        cases h
      · cases htwo
        rcases hsource : put faults placed directory source with e | both
        · obtain ⟨_, hplace⟩ := placeUnits_cons_error hsource []
          obtain ⟨-, rfl⟩ := Prod.mk.inj (h.symm.trans hplace)
          exact .inr ⟨header, source, rfl, hstages, hheader, e, hsource⟩
        · rw [placeUnits_cons hsource] at h
          cases h
  · obtain ⟨_, hwritten⟩ := written_of_not_stagesAll hstages
    exact .inl (Prod.mk.inj (h.symm.trans hwritten)).2

/-- A write of which a half is done fails, and the header is in its place. -/
theorem Halfway.not_leavesTargets (h : Halfway faults t directory units) :
    ¬ LeavesTargets faults t directory units := by
  obtain ⟨header, source, placed, rfl, hstages, hheader, ⟨e, hsource⟩, hnew⟩ := h
  obtain ⟨failure, hplace⟩ := placeUnits_cons_error hsource []
  have hwritten : written faults t directory [header, source] = (.error failure, placed) := by
    rw [written_of_stagesAll hstages, placeUnits_cons hheader]
    exact hplace
  intro hleaves
  have hheader' := hleaves failure placed hwritten header (by simp)
  rw [FileTree.at?_writeText (writeText_of_put hheader)] at hheader'
  exact hnew (extends_made.at? hheader'.symm)

/-- What a target led to before the output directory was made it leads to then, unless it led
nowhere. -/
theorem at?_made (hwritten : ∃ failure after,
    written faults t directory units = (.error failure, after))
    (huncovers : ¬ Uncovers faults t directory units) (hu : u ∈ units) :
    (made faults t directory).2.at? (targetOf directory u) = t.at? (targetOf directory u) := by
  rcases hbefore : t.at? (targetOf directory u) with _ | node
  · by_contra hne
    exact huncovers ⟨hwritten, u, hu, hbefore, hne⟩
  · exact extends_made.at? hbefore

/-- Unless a half is done, a write that fails leaves what stands when the output directory is
made. -/
theorem at?_of_not_halfway
    (hunits : (∃ header, units = [header]) ∨ ∃ header source, units = [header, source])
    {failure : Failure} {after : FileTree}
    (hwritten : written faults t directory units = (.error failure, after))
    (hhalfway : ¬ Halfway faults t directory units) (path : String) :
    after.at? path = (made faults t directory).2.at? path := by
  obtain rfl | ⟨header, source, rfl, hstages, hheader, hsource⟩ :=
    written_eq_error hunits hwritten
  · rfl
  · refine FileTree.at?_writeText_same (writeText_of_put hheader) ?_ path
    by_contra hnew
    exact hhalfway ⟨header, source, after, rfl, hstages, hheader, hsource, hnew⟩

end Writing

namespace Unplaced

/-- A protocol of one message. -/
def protocol : Protocol :=
  ⟨[⟨{ name := "PING", shortName := "ping" }, 0⟩]⟩

/-- The units of the protocol. -/
def units (s : Settings) : List OutputUnit :=
  unitsOfProtocol s protocol "ping.schema"

/-- A header, and a source unit beside it. -/
def beside : Settings :=
  { emission := .split }

theorem generate_beside : generate beside protocol "ping.schema" = .ok (units beside) :=
  (generate_eq_ok beside protocol "ping.schema" _).mpr ⟨nofun, by decide, rfl⟩

/-- A tree with an older header, and a directory where the source unit goes. -/
def tree : FileTree :=
  (({} : FileTree).addDirectory ["out", "gh_ipcmsg_type.c"]).addFile ["out", "gh_ipcmsg_type.h"] []

theorem mem_units_beside {u : OutputUnit} (hu : u ∈ units beside) :
    u = headerUnit beside protocol "ping.schema" ∨
      u = sourceUnit beside protocol "ping.schema" := by
  simpa [units, unitsOfProtocol, beside] using hu

theorem not_stagesAll_tree : ¬ StagesAll {} tree "out" (units beside) := by
  intro h
  have hsource := h.2 (sourceUnit beside protocol "ping.schema")
    (by simp [units, unitsOfProtocol, beside])
  exact absurd hsource.target (by decide)

theorem not_uncovers_tree : ¬ Uncovers {} tree "out" (units beside) := by
  rintro ⟨-, u, hu, hnone, -⟩
  obtain rfl | rfl := mem_units_beside hu
  · exact absurd hnone (by decide)
  · exact absurd hnone (by decide)

/-- A header, and a source unit in a directory of its own. -/
def below : Settings :=
  { emission := .split, sourceName? := some "c/ping.c" }

theorem generate_below : generate below protocol "ping.schema" = .ok (units below) :=
  (generate_eq_ok below protocol "ping.schema" _).mpr ⟨nofun, by decide, rfl⟩

theorem mem_units_below {u : OutputUnit} (hu : u ∈ units below) :
    u = headerUnit below protocol "ping.schema" ∨
      u = sourceUnit below protocol "ping.schema" := by
  simpa [units, unitsOfProtocol, below] using hu

theorem stagesAll_below : StagesAll {} {} "out" (units below) := by
  refine ⟨by decide, fun u hu => ?_⟩
  obtain rfl | rfl := mem_units_below hu
  · exact ⟨by decide, rfl, by decide⟩
  · exact ⟨by decide, rfl, by decide⟩

theorem halfway_below : Halfway {} {} "out" (units below) := by
  have hheader : put {} (made {} {} "out").2 "out" (headerUnit below protocol "ping.schema") =
      .ok ((made {} {} "out").2.put ["out", "gh_ipcmsg_type.h"]
        (.ofText (headerUnit below protocol "ping.schema").text)) :=
    FileTree.writeText_eq_ok.mpr
      ⟨["out", "gh_ipcmsg_type.h"], rfl, by decide, by decide, rfl⟩
  exact ⟨_, _, _, rfl, stagesAll_below, hheader, ⟨.notFound, rfl⟩, by decide⟩

end Unplaced

/-- A write that fails leaves what stood at the paths of the units, except in two ways: the header
was put in its place and the source was not, or the output directory was made and a path of a unit
leads somewhere through it. -/
theorem leavesTargets_iff (faults : Faults) (t : FileTree) (directory : String) {s : Settings}
    {p : Protocol} {sourceName : String} {units : List OutputUnit}
    (h : generate s p sourceName = .ok units) :
    LeavesTargets faults t directory units ↔
      ¬ Halfway faults t directory units ∧ ¬ Uncovers faults t directory units := by
  have hunits := units_cases h
  constructor
  · intro hleaves
    have hhalfway : ¬ Halfway faults t directory units :=
      fun hhalfway => hhalfway.not_leavesTargets hleaves
    refine ⟨hhalfway, ?_⟩
    rintro ⟨⟨failure, after, hwritten⟩, u, hu, hnone, hmade⟩
    refine hmade ?_
    rw [← at?_of_not_halfway hunits hwritten hhalfway, hleaves failure after hwritten u hu, hnone]
  · rintro ⟨hhalfway, huncovers⟩ failure after hwritten u hu
    rw [at?_of_not_halfway hunits hwritten hhalfway]
    exact at?_made ⟨failure, after, hwritten⟩ huncovers hu

theorem leavesTargets_blocked :
    generate Unplaced.beside Unplaced.protocol "ping.schema" = .ok (Unplaced.units Unplaced.beside) ∧
      (∃ failure after, written {} Unplaced.tree "out" (Unplaced.units Unplaced.beside) =
        (.error failure, after)) ∧
      LeavesTargets {} Unplaced.tree "out" (Unplaced.units Unplaced.beside) := by
  obtain ⟨failure, hwritten⟩ := written_of_not_stagesAll Unplaced.not_stagesAll_tree
  refine ⟨Unplaced.generate_beside, ⟨failure, _, hwritten⟩, ?_⟩
  refine (leavesTargets_iff {} Unplaced.tree "out" Unplaced.generate_beside).mpr
    ⟨?_, Unplaced.not_uncovers_tree⟩
  rintro ⟨_, _, _, -, hstages, -⟩
  exact Unplaced.not_stagesAll_tree hstages

/-- Where the source unit goes below a directory that does not stand, the header is left behind. -/
theorem not_leavesTargets_below :
    generate Unplaced.below Unplaced.protocol "ping.schema" = .ok (Unplaced.units Unplaced.below) ∧
      ¬ LeavesTargets {} {} "out" (Unplaced.units Unplaced.below) :=
  ⟨Unplaced.generate_below, Unplaced.halfway_below.not_leavesTargets⟩

end MessageSchema.Command
