import MessageSchema.Proofs.Settings.Entries
import MessageSchema.Proofs.Command.Writing

/-!
# Units that replace each other

Units are put in their places one after the other, and a unit replaces the file that stands in its
place, be it the unit before. `KeepsApart` says that units have different names and that each of
them stands at its path after a write that succeeds. Main statement: `keepsApart_iff`.

- **Places** (`SamePlaces`): where a path leads to does not change when units are put in place.
- **Putting in place** (`written_eq_ok`, `stand_iff`): a write that succeeds is a loop over the
  units. Units of different texts all stand at their paths just if the paths lead to different
  places.
- **Texts** (`nodup_texts`): a header and a source unit have different texts, so of two units in one
  place one is lost.
- **An example** (`Doubled`): one name for both units, which nothing compares.
-/

namespace MessageSchema.Command

open Output Generated

section Overwriting

variable {faults : Faults} {t t' after : FileTree} {directory path : String}
  {units : List OutputUnit} {u : OutputUnit} {q : Location}

/-! ## Places -/

/-- Every path leads to the same place in both trees. -/
def SamePlaces (t t' : FileTree) : Prop :=
  ∀ path q, t'.locate path = .ok q ↔ t.locate path = .ok q

theorem SamePlaces.trans {t'' : FileTree} (h : SamePlaces t t') (h' : SamePlaces t' t'') :
    SamePlaces t t'' :=
  fun path q => (h' path q).trans (h path q)

/-- Putting a unit in its place changes no way to a place. -/
theorem samePlaces_put (h : put faults t directory u = .ok t') : SamePlaces t t' := by
  obtain ⟨p, -, hp, -, rfl⟩ := FileTree.writeText_eq_ok.mp (writeText_of_put h)
  have hkeeps : FileTree.KeepsDirectories t (t.put p (.ofText u.text)) :=
    FileTree.keepsDirectories_put hp
  have hadds : FileTree.KeepsDirectories (t.put p (.ofText u.text)) t :=
    FileTree.keepsDirectories_of_put hp nofun
  intro path q
  exact ⟨FileTree.locateBy_of_keepsDirectories hadds, FileTree.locateBy_of_keepsDirectories hkeeps⟩

theorem exists_place_of_put (h : put faults t directory u = .ok t') :
    ∃ p, t.locate (targetOf directory u) = .ok p := by
  obtain ⟨p, hp, -⟩ := FileTree.writeText_eq_ok.mp (writeText_of_put h)
  exact ⟨p, hp⟩

/-- A unit that goes elsewhere leaves what stands at a path. -/
theorem at?_put (h : put faults t directory u = .ok t') (hpath : t.locate path = .ok q)
    (hne : t.locate (targetOf directory u) ≠ .ok q) : t'.at? path = t.at? path := by
  have hpath' := (samePlaces_put h path q).mpr hpath
  obtain ⟨p, hp, hfile, -, rfl⟩ := FileTree.writeText_eq_ok.mp (writeText_of_put h)
  rw [FileTree.at?_of_locate hpath', FileTree.at?_of_locate hpath,
    FileTree.node?_put (FileTree.ne_nil_of_node? hfile), if_neg]
  rintro rfl
  exact hne hp

/-! ## Putting in place -/

/-- Units are placed without an error just if each can be put in its place, one after the other. -/
theorem placeUnits_eq_ok :
    placeUnits (FileTree.faultySystem faults) (units.map (stagedUnit directory)) t =
        (.ok (), after) ↔
      units.foldlM (put faults · directory) t = .ok after := by
  induction units generalizing t with
  | nil =>
    constructor
    · intro h
      cases h
      rfl
    · intro h
      cases h
      rfl
  | cons u units ih =>
    rw [List.foldlM_cons]
    rcases hput : put faults t directory u with e | t'
    · obtain ⟨failure, hplace⟩ := placeUnits_cons_error hput units
      rw [hplace]
      constructor <;> intro h <;> cases h
    · rw [placeUnits_cons hput]
      exact ih

/-- A write that succeeds puts all units in their places. -/
theorem written_eq_ok :
    written faults t directory units = (.ok (), after) ↔ StagesAll faults t directory units ∧
      units.foldlM (put faults · directory) (made faults t directory).2 = .ok after := by
  by_cases hstages : StagesAll faults t directory units
  · rw [written_of_stagesAll hstages, placeUnits_eq_ok, and_iff_right hstages]
  · obtain ⟨failure, hwritten⟩ := written_of_not_stagesAll hstages
    simp [hwritten, hstages]

theorem samePlaces_of_foldlM (h : units.foldlM (put faults · directory) t = .ok after) :
    SamePlaces t after :=
  foldlM_preserves (fun _ _ _ hsame hput => hsame.trans (samePlaces_put hput))
    (fun _ _ => Iff.rfl) h

/-- The path of every unit that was put in its place leads to a place. -/
theorem exists_place_of_foldlM (h : units.foldlM (put faults · directory) t = .ok after)
    (hu : u ∈ units) : ∃ p, t.locate (targetOf directory u) = .ok p := by
  induction units generalizing t with
  | nil => cases hu
  | cons v units ih =>
    obtain ⟨t', hput, hunits⟩ := bind_eq_ok.mp h
    rcases List.mem_cons.mp hu with rfl | hu
    · exact exists_place_of_put hput
    · obtain ⟨p, hp⟩ := ih hunits hu
      exact ⟨p, (samePlaces_put hput _ p).mp hp⟩

/-- Units that go elsewhere leave what stands at a path. -/
theorem at?_of_foldlM (h : units.foldlM (put faults · directory) t = .ok after)
    (hpath : t.locate path = .ok q)
    (hne : ∀ u ∈ units, t.locate (targetOf directory u) ≠ .ok q) :
    after.at? path = t.at? path := by
  induction units generalizing t with
  | nil =>
    cases h
    rfl
  | cons u units ih =>
    obtain ⟨t', hput, hunits⟩ := bind_eq_ok.mp h
    obtain ⟨hu, hrest⟩ := List.forall_mem_cons.mp hne
    have hsame := samePlaces_put hput
    have hrest' : ∀ v ∈ units, t'.locate (targetOf directory v) ≠ .ok q :=
      fun v hv hq => hrest v hv ((hsame _ q).mp hq)
    rw [ih hunits ((hsame path q).mpr hpath) hrest', at?_put hput hpath hu]

/-- Units of different texts all stand at their paths just if these lead to different places. -/
theorem stand_iff (htexts : (units.map (·.text)).Nodup)
    (h : units.foldlM (put faults · directory) t = .ok after) :
    (∀ u ∈ units, after.at? (targetOf directory u) = some (.ofText u.text)) ↔
      (units.map fun u => t.locate (targetOf directory u)).Nodup := by
  induction units generalizing t with
  | nil => simp
  | cons u units ih =>
    have hafter := samePlaces_of_foldlM h
    obtain ⟨t', hput, hunits⟩ := bind_eq_ok.mp h
    obtain ⟨p, hp⟩ := exists_place_of_put hput
    have hsame := samePlaces_put hput
    obtain ⟨htext, htexts⟩ := List.nodup_cons.mp htexts
    have hplaces : (units.map fun v => t'.locate (targetOf directory v)) =
        units.map fun v => t.locate (targetOf directory v) := by
      refine List.map_congr_left fun v hv => ?_
      obtain ⟨r, hr⟩ := exists_place_of_foldlM hunits hv
      rw [hr, (hsame _ r).mp hr]
    rw [List.forall_mem_cons, List.map_cons, List.nodup_cons, ih htexts hunits, hplaces]
    refine and_congr_left fun hnodup => ?_
    have hstand := (ih htexts hunits).mpr (hplaces ▸ hnodup)
    constructor
    · -- two units in one place have the text that stands there
      intro hu hmem
      obtain ⟨v, hv, hplace⟩ := List.mem_map.mp hmem
      have hv' := hstand v hv
      rw [FileTree.at?_of_locate ((hafter _ p).mpr hp)] at hu
      rw [FileTree.at?_of_locate ((hafter _ p).mpr (hplace.trans hp)), hu] at hv'
      have heq : u.text = v.text := Node.ofText_injective (Option.some.inj hv')
      exact htext (List.mem_map.mpr ⟨v, hv, heq.symm⟩)
    · intro hnot
      have helsewhere : ∀ v ∈ units, t'.locate (targetOf directory v) ≠ .ok p := by
        intro v hv hr
        exact hnot (List.mem_map.mpr ⟨v, hv, ((hsame _ p).mp hr).trans hp.symm⟩)
      rw [at?_of_foldlM hunits ((hsame _ p).mpr hp) helsewhere]
      exact FileTree.at?_writeText (writeText_of_put hput)

/-- Units in different places have different names. -/
theorem nodup_names_of_nodup_places
    (h : (units.map fun u => t.locate (targetOf directory u)).Nodup) :
    (units.map (·.name)).Nodup := by
  have hplaces : (units.map fun u => t.locate (targetOf directory u)) =
      (units.map (·.name)).map fun name => t.locate (joinPath directory name) := by
    rw [List.map_map]
    rfl
  rw [hplaces] at h
  exact h.of_map _

section Texts

variable {s : Settings} {p : Protocol} {sourceName : String}

theorem textOf_bannerScript_append (s : Settings) (sourceName text : String) (rest : List Step) :
    textOf s.indent (bannerScript sourceName ++ .write text :: rest) =
      textOf s.indent (bannerScript sourceName) ++ (text ++ "\n" ++ textOf s.indent rest) := by
  rw [textOf_append rfl, textOf_write_cons]

/-- Behind the banner a header and a source unit go on differently. -/
theorem text_headerUnit_ne :
    (headerUnit s p sourceName).text ≠ (sourceUnit s p sourceName).text := by
  obtain ⟨header, hheader⟩ : ∃ rest, headerBody s sourceName (targetsOf s p) =
      bannerScript sourceName ++ .write "#pragma once" :: rest := ⟨_, rfl⟩
  obtain ⟨source, hsource⟩ : ∃ rest, sourceBody s sourceName (targetsOf s p) =
      bannerScript sourceName ++ .write ("#include \"" ++ s.headerName ++ "\"") :: rest := ⟨_, rfl⟩
  rw [headerUnit, sourceUnit, hheader, hsource, textOf_bannerScript_append,
    textOf_bannerScript_append, Ne, String.append_right_inj]
  intro h
  have hsecond := congrArg (fun text => text.toList[1]?) h
  simp at hsecond

/-- The units of a protocol have different texts. -/
theorem nodup_texts (h : generate s p sourceName = .ok units) :
    (units.map (·.text)).Nodup := by
  obtain ⟨-, -, rfl⟩ := (generate_eq_ok s p sourceName units).mp h
  unfold unitsOfProtocol
  split
  · exact List.nodup_singleton _
  · simpa using text_headerUnit_ne

end Texts

/-! ## Units that are kept apart -/

/-- Units have different names, and after a write that succeeds the text of each stands at its
path. -/
structure KeepsApart (faults : Faults) (t : FileTree) (directory : String)
    (units : List OutputUnit) : Prop where
  names : (units.map (·.name)).Nodup
  stand : ∀ after, written faults t directory units = (.ok (), after) →
    ∀ u ∈ units, after.at? (targetOf directory u) = some (.ofText u.text)

/-- The names of the header and of the source differ, and where both are written they lead to
different places. -/
structure Separate (s : Settings) (faults : Faults) (t : FileTree) (directory : String)
    (units : List OutputUnit) : Prop where
  names : s.headerName ≠ s.sourceName
  places : (written faults t directory units).1 = .ok () →
    (made faults t directory).2.locate (joinPath directory s.headerName) ≠
      (made faults t directory).2.locate (joinPath directory s.sourceName)

/-- Units with different texts are kept apart just if their names differ and, after a write that
succeeds, so do the places that their paths lead to. -/
theorem keepsApart_iff_nodup (htexts : (units.map (·.text)).Nodup) :
    KeepsApart faults t directory units ↔ (units.map (·.name)).Nodup ∧
      ((written faults t directory units).1 = .ok () →
        (units.map fun u => (made faults t directory).2.locate (targetOf directory u)).Nodup) := by
  constructor
  · intro h
    refine ⟨h.names, fun hok => ?_⟩
    have hwritten : written faults t directory units =
        (.ok (), (written faults t directory units).2) := Prod.ext hok rfl
    exact (stand_iff htexts (written_eq_ok.mp hwritten).2).mp (h.stand _ hwritten)
  · rintro ⟨hnames, hplaces⟩
    refine ⟨hnames, fun after hwritten => ?_⟩
    have hok := congrArg Prod.fst hwritten
    exact (stand_iff htexts (written_eq_ok.mp hwritten).2).mpr (hplaces hok)

/-- A single unit is always kept apart, and the two of a split emission if their names and places
differ. -/
theorem keepsApart_of_generate {s : Settings} {p : Protocol} {sourceName : String}
    (h : generate s p sourceName = .ok units) :
    KeepsApart faults t directory units ↔
      (s.emission = .split → Separate s faults t directory units) := by
  rw [keepsApart_iff_nodup (nodup_texts h)]
  obtain ⟨-, -, hunits⟩ := (generate_eq_ok s p sourceName units).mp h
  unfold unitsOfProtocol at hunits
  rcases hemission : s.emission with _ | _
  · rw [hemission] at hunits
    simp [hunits]
  · rw [hemission] at hunits
    have hnames : units.map (·.name) = [s.headerName, s.sourceName] := by
      rw [hunits]
      rfl
    have hplaces : (units.map fun u => (made faults t directory).2.locate (targetOf directory u)) =
        [(made faults t directory).2.locate (joinPath directory s.headerName),
          (made faults t directory).2.locate (joinPath directory s.sourceName)] := by
      rw [hunits]
      rfl
    have hpair {α : Type} (a b : α) : [a, b].Nodup ↔ a ≠ b := by simp
    rw [hnames, hplaces, hpair, hpair]
    exact ⟨fun ⟨hne, hplace⟩ _ => ⟨hne, hplace⟩, fun h => ⟨(h rfl).names, (h rfl).places⟩⟩

end Overwriting

namespace Doubled

/-- A schema whose header and source are called the same. -/
def source : String :=
  "options \x7b emit_mode = \"split\"; header_name = \"ping.h\"; " ++
    "source_name = \"ping.h\"; \x7d\n" ++
    "table (name, shortname) \x7b (\"PING\", \"ping\") \x7d\n"

/-- A schema with names that follow from the root of all symbols. -/
def otherSource : String :=
  "options \x7b emit_mode = \"split\"; prefix = \"ping\"; \x7d\n" ++
    "table (name, shortname) \x7b (\"PING\", \"ping\") \x7d\n"

/-- The names that the settings of a source give a header and a source unit. -/
def settingsNames? (source : String) : Option (String × String) :=
  (load source []).toOption.map fun loaded =>
    (loaded.settings.headerName, loaded.settings.sourceName)

/-- The names of the units of a source. -/
def unitNames? (source : String) : Option (List String) :=
  (compile source "ping.schema" []).toOption.map fun units => units.map (·.name)

theorem exists_units_source : ∃ units, compile source "ping.schema" [] = .ok units ∧
    units.map (·.name) = ["ping.h", "ping.h"] := by
  have h : unitNames? source = some ["ping.h", "ping.h"] := by decide +kernel
  exact exists_of_toOption_map h

theorem exists_units_otherSource : ∃ units, compile otherSource "ping.schema" [] = .ok units ∧
    units.map (·.name) = ["ping_type.h", "ping_type.c"] := by
  have h : unitNames? otherSource = some ["ping_type.h", "ping_type.c"] := by decide +kernel
  exact exists_of_toOption_map h

theorem names_otherSource {loaded : LoadedSchema} (h : load otherSource [] = .ok loaded) :
    loaded.settings.headerName = "ping_type.h" ∧ loaded.settings.sourceName = "ping_type.c" := by
  have hnames : settingsNames? otherSource = some ("ping_type.h", "ping_type.c") := by
    decide +kernel
  obtain ⟨other, hother, hnames⟩ := exists_of_toOption_map hnames
  cases h.symm.trans hother
  exact Prod.mk.inj hnames

theorem put_ping {t : FileTree} {u : OutputUnit} (hname : u.name = "ping.h")
    (hplace : t.locate "out/ping.h" = .ok ["out", "ping.h"])
    (hfile : t.node? ["out", "ping.h"] ≠ some .directory) :
    put {} t "out" u = .ok (t.put ["out", "ping.h"] (.ofText u.text)) := by
  have htarget : targetOf "out" u = "out/ping.h" := by
    rw [targetOf, hname]
    rfl
  rw [put, htarget]
  exact FileTree.writeText_eq_ok.mpr ⟨_, hplace, hfile, by decide, rfl⟩

/-- Two units of this name are written without an error, and both have one path. -/
theorem exists_written {units : List OutputUnit}
    (h : units.map (·.name) = ["ping.h", "ping.h"]) :
    ∃ after, written {} {} "out" units = (.ok (), after) := by
  obtain ⟨header, rest, rfl, hheader, hrest⟩ := List.map_eq_cons_iff.mp h
  obtain ⟨source, rest, rfl, hsource, hrest⟩ := List.map_eq_cons_iff.mp hrest
  obtain rfl := List.map_eq_nil_iff.mp hrest
  have hstages : StagesAll {} {} "out" [header, source] := by
    refine ⟨by decide, fun u hu => ?_⟩
    have hname : u.name = "ping.h" := by
      rcases List.mem_cons.mp hu with rfl | hu
      · exact hheader
      · rw [List.mem_singleton.mp hu, hsource]
    refine ⟨?_, rfl, by decide⟩
    rw [targetOf, hname]
    decide
  have hplace : (made {} {} "out").2.locate "out/ping.h" = .ok ["out", "ping.h"] := rfl
  have hfirst := put_ping hheader hplace (by decide)
  -- the file of the first unit is no directory, so the second can replace it
  have hfile : ((made {} {} "out").2.put ["out", "ping.h"] (.ofText header.text)).node?
      ["out", "ping.h"] ≠ some .directory := by
    rw [FileTree.node?_put (by decide), if_pos rfl]
    nofun
  have hsecond := put_ping hsource ((samePlaces_put hfirst _ _).mpr hplace) hfile
  have hunits : [header, source].foldlM (put {} · "out") (made {} {} "out").2 = .ok _ :=
    bind_eq_ok.mpr ⟨_, hfirst, bind_eq_ok.mpr ⟨_, hsecond, rfl⟩⟩
  exact ⟨_, written_eq_ok.mpr ⟨hstages, hunits⟩⟩

end Doubled

/-- The units of a schema are kept apart just if there is one unit, or the names of the header and
of the source differ and, where both are written, lead to different places. -/
theorem keepsApart_iff {source sourceName : String} {overrides : List (String × Cell)}
    {units : List OutputUnit} (h : compile source sourceName overrides = .ok units) :
    ∃ loaded, load source overrides = .ok loaded ∧ ∀ faults t directory,
      KeepsApart faults t directory units ↔
        (loaded.settings.emission = .split →
          Separate loaded.settings faults t directory units) := by
  obtain ⟨loaded, hload, hunits⟩ := exists_generate_of_compile h
  exact ⟨loaded, hload, fun _ _ _ => keepsApart_of_generate hunits⟩

theorem keepsApart_ping : ∃ units, compile Doubled.otherSource "ping.schema" [] = .ok units ∧
    units.map (·.name) = ["ping_type.h", "ping_type.c"] ∧ KeepsApart {} {} "out" units := by
  obtain ⟨units, hunits, hnames⟩ := Doubled.exists_units_otherSource
  obtain ⟨loaded, hload, hiff⟩ := keepsApart_iff hunits
  obtain ⟨hheader, hsource⟩ := Doubled.names_otherSource hload
  have hfirst : (made {} {} "out").2.locate (joinPath "out" "ping_type.h") =
      .ok ["out", "ping_type.h"] := rfl
  have hsecond : (made {} {} "out").2.locate (joinPath "out" "ping_type.c") =
      .ok ["out", "ping_type.c"] := rfl
  refine ⟨units, hunits, hnames, (hiff {} {} "out").mpr fun _ => ⟨?_, fun _ => ?_⟩⟩
  · rw [hheader, hsource]
    decide
  · rw [hheader, hsource, hfirst, hsecond]
    decide

/-- Where both units have one name, the write succeeds and the text of a unit is lost. -/
theorem not_keepsApart_doubled : ∃ units after,
    compile Doubled.source "ping.schema" [] = .ok units ∧
      units.map (·.name) = ["ping.h", "ping.h"] ∧
      written {} {} "out" units = (.ok (), after) ∧
      (¬ ∀ u ∈ units, after.at? (targetOf "out" u) = some (.ofText u.text)) ∧
      ¬ KeepsApart {} {} "out" units := by
  obtain ⟨units, hunits, hnames⟩ := Doubled.exists_units_source
  obtain ⟨after, hwritten⟩ := Doubled.exists_written hnames
  obtain ⟨loaded, -, hgenerate⟩ := exists_generate_of_compile hunits
  have hnodup : ¬ (units.map (·.name)).Nodup := by
    rw [hnames]
    decide
  refine ⟨units, after, hunits, hnames, hwritten, fun hstand => hnodup ?_, fun h => hnodup h.names⟩
  have hplaces := stand_iff (nodup_texts hgenerate) (written_eq_ok.mp hwritten).2
  exact nodup_names_of_nodup_places (hplaces.mp hstand)

end MessageSchema.Command
