import Mathlib.Logic.Function.Basic
import BankedLoops.CommandLine.Session
import BankedLoops.Proofs.Names
import BankedLoops.Proofs.Success

/-!
# What a run delivers

A run delivers its whole result or nothing. `run_delivers` says so for any surroundings where making a
temporary file and renaming one either succeed or change nothing: a run that fails prints nothing on
standard output and leaves every file as it was, and one that succeeds delivers the netlist, in the format
that is asked for, to one place and changes nothing else.
-/

namespace BankedLoops

namespace Files

/-! ### Files -/

/-- The contents of the file at a path below the working directory. -/
def contents? (f : Files) (path : List String) : Option ByteArray := f.entries.lookup path

/-- The path that the names of another one lead to from `here`. -/
def resolve (here : List String) : List String → List String
  | [] => here
  | name :: names =>
    if name = "" ∨ name = "." then resolve here names
    else if name = ".." then resolve here.dropLast names
    else resolve (here ++ [name]) names

/-- The entry that a path names, which need not be there. -/
def named (path : String) : Option (List String) := (names path).toOption.map (resolve [])

def Place.path : Place → List String
  | .file path _ | .directory path | .vacant path => path

theorem lookup_filter_of_ne {entries : List (List String × ByteArray)} {path other : List String}
    (different : other ≠ path) : (entries.filter (·.1 != path)).lookup other = entries.lookup other := by
  induction entries with
  | nil => rfl
  | cons entry entries ih =>
    by_cases removed : entry.1 = path
    · rw [List.filter_cons_of_neg (by simp [removed]), ih, List.lookup_cons, removed,
        beq_false_of_ne different]
    · rw [List.filter_cons_of_pos (by simpa using removed), List.lookup_cons, List.lookup_cons, ih]

theorem contents?_put (f : Files) (path : List String) (contents : ByteArray) :
    (f.put path contents).contents? = Function.update f.contents? path (some contents) := by
  funext other
  rw [Function.update_apply, contents?, put]
  by_cases same : other = path
  · rw [if_pos same, same, List.lookup_cons_self]
  · rw [if_neg same, List.lookup_cons, beq_false_of_ne same]
    exact lookup_filter_of_ne same

theorem contents?_remove (f : Files) (path : List String) :
    (f.remove path).contents? = Function.update f.contents? path none := by
  funext other
  rw [Function.update_apply, contents?, remove]
  by_cases same : other = path
  · rw [if_pos same, same, List.lookup_eq_none_iff]
    intro entry member
    have kept : entry.1 ≠ path := by simpa using (List.mem_filter.mp member).2
    simpa using kept.symm
  · rw [if_neg same]
    exact lookup_filter_of_ne same

theorem contents?_append {f : Files} {path : List String} {old : ByteArray}
    (held : f.contents? path = some old) (contents : ByteArray) :
    (f.append path contents).contents? =
      Function.update f.contents? path (some (old ++ contents)) := by
  rw [contents?] at held
  rw [append, held]
  exact contents?_put _ _ _

theorem path_of_locate {f : Files} {here parts : List String} {place : Place}
    (located : f.locate here parts = .ok place) : place.path = resolve here parts := by
  induction parts generalizing here with
  | nil =>
    cases located
    rfl
  | cons name parts ih =>
    unfold locate at located
    unfold resolve
    split at located
    · next skipped =>
      rw [if_pos skipped]
      exact ih located
    next kept =>
    rw [if_neg kept]
    split at located
    · next up =>
      rw [if_pos up]
      split at located
      · cases located
      · exact ih located
    next down =>
    rw [if_neg down]
    dsimp only at located
    cases found : f.entries.lookup (here ++ [name]) with
    | some contents =>
      cases parts with
      | nil =>
        simp only [found, List.isEmpty_nil, if_true] at located
        cases located
        rfl
      | cons _ _ =>
        simp only [found, List.isEmpty_cons, Bool.false_eq_true, if_false] at located
        cases located
    | none =>
      simp only [found] at located
      split at located
      · exact ih located
      cases parts with
      | nil =>
        cases located
        rfl
      | cons _ _ => cases located

/-- The name of a temporary file is on no path. -/
theorem contents?_unusedName (f : Files) (directory : List String) :
    f.contents? (directory ++ [f.unusedName]) = none := by
  rw [contents?, List.lookup_eq_none_iff]
  intro entry member
  have free : f.unusedName ∉ f.entries.flatMap (·.1) :=
    FreeName.firstFree_not_mem (FreeName.numbered_injective _) _ _
  have apart : directory ++ [f.unusedName] ≠ entry.1 := fun same =>
    free (List.mem_flatMap.mpr ⟨entry, member, same ▸ List.mem_append_right _ List.mem_cons_self⟩)
  simpa using apart

theorem createIn_ok {f f' : Files} {directory : String} {temp : List String}
    (created : f.createIn directory = .ok (temp, f')) :
    f.contents? temp = none ∧ f'.contents? = Function.update f.contents? temp (some .empty) := by
  unfold createIn at created
  split at created
  · cases created
    exact ⟨contents?_unusedName _ _, contents?_put _ _ _⟩
  all_goals cases created

theorem rename_ok {f f' : Files} {temp : List String} {path : String}
    (renamed : f.rename temp path = .ok f') :
    ∃ target, named path = some target ∧ f'.contents? =
      Function.update (Function.update f.contents? temp none) target (f.contents? temp) := by
  simp only [rename, bind_ok_iff] at renamed
  obtain ⟨parts, split_, renamed⟩ := renamed
  have named_ : named path = some (resolve [] parts) := by rw [named, split_]; rfl
  split at renamed
  · cases renamed
  split at renamed
  · cases renamed
  simp only [bind_ok_iff] at renamed
  obtain ⟨place, located, moved⟩ := renamed
  have target := path_of_locate located
  refine ⟨_, named_, ?_⟩
  rw [← target, ← contents?_remove]
  cases found : f.contents? temp with
  | none =>
    rw [contents?] at found
    rw [found] at moved
    cases moved
  | some contents =>
    rw [contents?] at found
    rw [found] at moved
    cases place with
    | file target _ =>
      cases moved
      exact contents?_put _ _ _
    | vacant target =>
      cases moved
      exact contents?_put _ _ _
    | directory _ => cases moved

end Files

namespace CommandLine

/-! ### Surroundings -/

/-- What lies at a place in a directory. -/
inductive Entry where
  | file (contents : ByteArray)
  | link (target : String)
  | directory

/-- Surroundings where a temporary file is made or renamed as a whole or not at all. `entries` are what
lies at each place, and `named` is the place that a path names: a link at its end is not followed. A
temporary file `temp` lies at `place temp`. -/
structure Host.Transacts {τ σ κ : Type} [DecidableEq κ] (host : Host τ (StateM σ))
    (entries : σ → κ → Option Entry) (named : σ → String → Option κ) (place : τ → κ) : Prop where
  /-- Reading a file changes nothing. -/
  reads : ∀ path s, ((host.readFile path).run s).2 = s
  /-- Standard input is used up, but the files stay. -/
  readsInput : ∀ s, entries (host.readInput.run s).2 = entries s ∧
    named (host.readInput.run s).2 = named s
  /-- A temporary file takes the place of nothing. -/
  created : ∀ directory s temp, ((host.createIn directory).run s).1 = .ok temp →
    entries s (place temp) = none ∧
      entries ((host.createIn directory).run s).2 =
        Function.update (entries s) (place temp) (some (.file .empty)) ∧
      named ((host.createIn directory).run s).2 = named s
  notCreated : ∀ directory s fault, ((host.createIn directory).run s).1 = .error fault →
    entries ((host.createIn directory).run s).2 = entries s
  written : ∀ temp text s old, entries s (place temp) = some (.file old) →
    ((host.write temp text).run s).1 = .ok () →
    entries ((host.write temp text).run s).2 =
        Function.update (entries s) (place temp) (some (.file (old ++ text.toUTF8))) ∧
      named ((host.write temp text).run s).2 = named s
  /-- A part of the text may have been written. -/
  notWritten : ∀ temp text s fault, ((host.write temp text).run s).1 = .error fault →
    ∃ part, entries ((host.write temp text).run s).2 = Function.update (entries s) (place temp) part
  discarded : ∀ temp s,
    entries ((host.discard temp).run s).2 = Function.update (entries s) (place temp) none
  persisted : ∀ temp path s, ((host.persist temp path).run s).1 = .ok () →
    ∃ target, named s path = some target ∧
      entries ((host.persist temp path).run s).2 =
        Function.update (Function.update (entries s) (place temp) none) target (entries s (place temp))
  notPersisted : ∀ temp path s fault, ((host.persist temp path).run s).1 = .error fault →
    entries ((host.persist temp path).run s).2 = entries s

/-- The files below the working directory; a directory is no entry of its own there. -/
def World.entries (w : World) (path : List String) : Option Entry := (w.files.contents? path).map .file

theorem World.entries_of_contents (w : World) {files : Files} {path : List String}
    {contents : Option ByteArray}
    (updated : files.contents? = Function.update w.files.contents? path contents) :
    World.entries { w with files := files } = Function.update w.entries path (contents.map .file) := by
  funext other
  rw [World.entries]
  dsimp only
  rw [updated, Function.update_apply, Function.update_apply]
  split <;> rfl

theorem World.run_readInput (w : World) : (World.host.readInput.run w).2 = w := by
  simp only [World.host, StateT.run_bind, StateT.run_get, pure_bind]
  cases String.fromUTF8? w.input <;> rfl

theorem World.run_createIn (directory : String) (w : World) :
    (World.host.createIn directory).run w = match w.files.createIn directory with
      | .error fault => (Except.error fault, w)
      | .ok (temp, files) => (Except.ok temp, { w with files := files }) := by
  show ((match w.files.createIn directory with
    | .error fault => return .error fault
    | .ok (temp, files) => do
      modify fun w => { w with files := files }
      return .ok temp : StateM World (Except FileFault (List String))).run w) = _
  cases w.files.createIn directory <;> rfl

theorem World.run_persist (temp : List String) (path : String) (w : World) :
    (World.host.persist temp path).run w = match w.files.rename temp path with
      | .error fault => (Except.error fault, w)
      | .ok files => (Except.ok (), { w with files := files }) := by
  show ((match w.files.rename temp path with
    | .error fault => return .error fault
    | .ok files => do
      modify fun w => { w with files := files }
      return .ok () : StateM World (Except FileFault Unit)).run w) = _
  cases w.files.rename temp path <;> rfl

theorem World.transacts :
    World.host.Transacts World.entries (fun _ path => Files.named path) (fun temp => temp) where
  reads path w := rfl
  readsInput w := by
    rw [World.run_readInput]
    exact ⟨rfl, rfl⟩
  created directory w temp success := by
    rw [World.run_createIn] at success ⊢
    cases made : w.files.createIn directory with
    | error fault =>
      rw [made] at success
      cases success
    | ok result =>
      obtain ⟨temp', files⟩ := result
      rw [made] at success
      cases success
      obtain ⟨absent, updated⟩ := Files.createIn_ok made
      exact ⟨by rw [World.entries, absent]; rfl,
        World.entries_of_contents w updated, rfl⟩
  notCreated directory w fault failed := by
    rw [World.run_createIn] at failed ⊢
    cases made : w.files.createIn directory with
    | error fault => rfl
    | ok result =>
      rw [made] at failed
      cases failed
  written temp text w old present success := by
    have held : w.files.contents? temp = some old := by simpa [World.entries] using present
    exact ⟨World.entries_of_contents w (Files.contents?_append held _), rfl⟩
  notWritten temp text w fault failed := by cases failed
  discarded temp w := World.entries_of_contents w (Files.contents?_remove _ _)
  persisted temp path w success := by
    rw [World.run_persist] at success ⊢
    cases moved : w.files.rename temp path with
    | error fault =>
      rw [moved] at success
      cases success
    | ok files =>
      obtain ⟨target, leads, updated⟩ := Files.rename_ok moved
      refine ⟨target, leads, ?_⟩
      rw [← Files.contents?_remove] at updated
      have removed := World.entries_of_contents w (Files.contents?_remove w.files temp)
      exact (World.entries_of_contents { w with files := w.files.remove temp } updated).trans
        (by rw [removed]; rfl)
  notPersisted temp path w fault failed := by
    rw [World.run_persist] at failed ⊢
    cases moved : w.files.rename temp path with
    | error fault => rfl
    | ok files =>
      rw [moved] at failed
      cases failed

/-! ### Preparations -/

/-- The settings `base`, but for the options that are given. -/
structure Overrides (o : Options) (base config : Config) : Prop where
  output : config.output = match o.output with
    | some path => some path
    | none => base.output
  format : config.format = if o.json then .json else base.format
  checkOnly : config.checkOnly = if o.checkOnly then true else base.checkOnly
  emitMetadata : config.emitMetadata = if o.noMetadata then false else base.emitMetadata
  topName : config.topName = match o.top with
    | some name => name
    | none => base.topName
  emitPositions : config.emitPositions = base.emitPositions

theorem Overrides.unique {o : Options} {base config config' : Config} (h : Overrides o base config)
    (h' : Overrides o base config') : config = config' := by
  obtain ⟨_, _, _, _, _, _⟩ := config
  obtain ⟨_, _, _, _, _, _⟩ := config'
  rw [Config.mk.injEq]
  exact ⟨h.topName.trans h'.topName.symm, h.emitMetadata.trans h'.emitMetadata.symm,
    h.emitPositions.trans h'.emitPositions.symm, h.format.trans h'.format.symm,
    h.checkOnly.trans h'.checkOnly.symm, h.output.trans h'.output.symm⟩

theorem overrides_apply (o : Options) (base : Config) : Overrides o base (o.apply base) where
  output := by cases output : o.output <;> simp [Options.apply, output]
  format := rfl
  checkOnly := by cases checkOnly : o.checkOnly <;> simp [Options.apply, checkOnly]
  emitMetadata := by cases noMetadata : o.noMetadata <;> simp [Options.apply, noMetadata]
  topName := by cases top : o.top <;> simp [Options.apply, top]
  emitPositions := rfl

theorem overrides_iff {o : Options} {base config : Config} :
    Overrides o base config ↔ config = o.apply base :=
  ⟨fun overrides => overrides.unique (overrides_apply o base), fun same => same ▸ overrides_apply o base⟩

variable {τ σ κ : Type} {host : Host τ (StateM σ)} {entries : σ → κ → Option Entry}
  {named : σ → String → Option κ} {place : τ → κ}

/-- The settings are loaded and the source is read; `now` are the surroundings after that. -/
structure Prepared (host : Host τ (StateM σ)) (o : Options) (before : σ) (config : Config)
    (source : String) (now : σ) : Prop where
  settings : ∃ base, Overrides o base config ∧ match o.config with
    | none => base = {}
    | some path => ∃ text, ((host.readFile path).run before).1 = .ok text ∧ Config.ofToml text = .ok base
  source : (match o.input with
    | some path => host.readFile path
    | none => host.readInput).run before = (.ok source, now)

theorem run_bind {α β : Type} (x : StateM σ α) (f : α → StateM σ β) (s : σ) :
    (x >>= f).run s = (f (x.run s).1).run (x.run s).2 := by
  rw [StateT.run_bind]
  rfl

/-- The netlist in a format. -/
inductive Renders (n : Netlist) : Format → String → Prop where
  | text : Renders n .text n.text
  | json : Renders n .json n.toJson.pretty

theorem renders_iff {n : Netlist} {format : Format} {text : String} :
    Renders n format text ↔ text = render format n := by
  constructor
  · rintro ⟨⟩ <;> rfl
  · rintro rfl
    cases format <;> constructor

/-- A file can be made beside a path, filled with a text and renamed to the path. -/
def Writable (host : Host τ (StateM σ)) (path text : String) (now : σ) : Prop :=
  ∃ temp made filled renamed, (host.createIn (directoryOf path)).run now = (.ok temp, made) ∧
    (host.write temp text).run made = (.ok (), filled) ∧
    (host.persist temp path).run filled = (.ok (), renamed)

/-- A failure: nothing is printed and no file changes. -/
structure Quits (entries : σ → κ → Option Entry) (before : σ) (ended : Report × σ) : Prop where
  code : ended.1.code ≠ 0
  silent : ended.1.out = ""
  same : entries ended.2 = entries before

/-- No pass fails, and the output file can be written. -/
def Deliverable (host : Host τ (StateM σ)) (config : Config) (source : String) (now : σ) : Prop :=
  if config.checkOnly then ∃ p, (check source).result = .ok p
  else ∃ n text, (compile config source).result = .ok n ∧ Renders n config.format text ∧
    ∀ path, config.output = some path → Writable host path text now

theorem quits_failureReport {log : String} {e : Failure} {before now : σ}
    (same : entries now = entries before) : Quits entries before (failureReport log e, now) := by
  cases e with
  | error e => exact ⟨by simp [failureReport], rfl, same⟩
  | fault f => exact ⟨by simp [failureReport], rfl, same⟩

variable [DecidableEq κ]

theorem run_readFile (transacts : host.Transacts entries named place) (path : String) (s : σ) :
    (host.readFile path).run s = (((host.readFile path).run s).1, s) :=
  Prod.ext rfl (transacts.reads path s)

/-- Without its temporary file, a place is as it was. -/
theorem update_discarded {before now : κ → Option Entry} {temp : κ} {entry : Option Entry}
    (absent : before temp = none) (filled : now = Function.update before temp entry) :
    Function.update now temp none = before := by
  rw [filled, Function.update_idem, ← absent, Function.update_eq_self]

theorem entries_discard (transacts : host.Transacts entries named place) {temp : τ} {s now : σ}
    {entry : Option Entry} (absent : entries s (place temp) = none)
    (filled : entries now = Function.update (entries s) (place temp) entry) :
    entries ((host.discard temp).run now).2 = entries s := by
  rw [transacts.discarded]
  exact update_discarded absent filled

/-- Where the steps of writing a file all succeed, the text takes the place of what the path names. Where
one fails, no file changes. -/
theorem writeAtomically_ends (transacts : host.Transacts entries named place) (path text : String)
    (s : σ) :
    (∃ fault ended, (writeAtomically host path text).run s = (.error fault, ended) ∧
      entries ended = entries s ∧ ¬ Writable host path text s) ∨
    (∃ target ended, (writeAtomically host path text).run s = (.ok (), ended) ∧
      named s path = some target ∧
      entries ended = Function.update (entries s) target (some (.file text.toUTF8))) := by
  unfold writeAtomically Writable
  rw [run_bind]
  have created := transacts.created (directoryOf path) s
  have notCreated := transacts.notCreated (directoryOf path) s
  generalize (host.createIn (directoryOf path)).run s = ended at created notCreated
  obtain ⟨temp | temp, made⟩ := ended
  · exact .inl ⟨_, _, rfl, notCreated _ rfl, by rintro ⟨_, _, _, _, ⟨⟩, _⟩⟩
  -- The temporary file lies where nothing lay, so taking it away undoes all that is done to it.
  obtain ⟨absent, entriesMade, namedMade⟩ := created temp rfl
  dsimp only at entriesMade namedMade ⊢
  rw [run_bind]
  have written := transacts.written temp text made .empty
  have notWritten := transacts.notWritten temp text made
  generalize wrote : (host.write temp text).run made = ended at written notWritten
  obtain ⟨fault | _, filled⟩ := ended
  · dsimp only
    rw [run_bind]
    refine .inl ⟨_, _, rfl, ?_, ?_⟩
    · obtain ⟨part, entriesFilled⟩ := notWritten fault rfl
      rw [entriesMade, Function.update_idem] at entriesFilled
      exact entries_discard transacts absent entriesFilled
    · rintro ⟨_, _, _, _, ⟨⟩, success, _⟩
      rw [wrote] at success
      cases success
  obtain ⟨entriesFilled, namedFilled⟩ := written (by rw [entriesMade, Function.update_self]) rfl
  dsimp only at entriesFilled namedFilled ⊢
  rw [entriesMade, Function.update_idem, ByteArray.empty_append] at entriesFilled
  rw [run_bind]
  have persisted := transacts.persisted temp path filled
  have notPersisted := transacts.notPersisted temp path filled
  generalize moved : (host.persist temp path).run filled = ended at persisted notPersisted
  obtain ⟨fault | _, renamed⟩ := ended
  · dsimp only
    rw [run_bind]
    refine .inl ⟨_, _, rfl, ?_, ?_⟩
    · exact entries_discard transacts absent ((notPersisted fault rfl).trans entriesFilled)
    · rintro ⟨_, _, _, _, ⟨⟩, success, moves⟩
      rw [wrote] at success
      cases success
      rw [moved] at moves
      cases moves
  obtain ⟨target, leads, entriesRenamed⟩ := persisted rfl
  dsimp only at entriesRenamed
  refine .inr ⟨target, _, rfl, by rw [← leads, namedFilled, namedMade], ?_⟩
  rw [entriesRenamed, update_discarded absent entriesFilled, entriesFilled, Function.update_self]

/-- Loading settings changes nothing. -/
theorem run_loadConfig (transacts : host.Transacts entries named place) (o : Options) (before : σ) :
    ∃ settings, (loadConfig host o).run before = (settings, before) ∧
      ∀ config, settings = .ok config ↔ ∃ base, Overrides o base config ∧ match o.config with
        | none => base = {}
        | some path => ∃ text, ((host.readFile path).run before).1 = .ok text ∧
            Config.ofToml text = .ok base := by
  unfold loadConfig
  cases o.config with
  | none =>
    refine ⟨.ok (o.apply {}), rfl, fun config => ?_⟩
    simp only [overrides_iff]
    exact ⟨fun same => ⟨{}, (Except.ok.inj same).symm, rfl⟩, by rintro ⟨_, rfl, rfl⟩; rfl⟩
  | some path =>
    dsimp only
    rw [run_bind, run_readFile transacts]
    dsimp only
    generalize ((host.readFile path).run before).1 = text
    cases text with
    | error fault => exact ⟨_, rfl, fun config => ⟨nofun, by rintro ⟨_, _, _, absurd_, _⟩; cases absurd_⟩⟩
    | ok text =>
      refine ⟨_, rfl, fun config => ?_⟩
      rw [map_ok_iff]
      simp only [overrides_iff]
      constructor
      · rintro ⟨base, read, rfl⟩
        exact ⟨base, rfl, text, rfl, read⟩
      · rintro ⟨base, rfl, _, ⟨⟩, read⟩
        exact ⟨base, read, rfl⟩

/-- Reading the source changes no file. -/
theorem run_readSource (transacts : host.Transacts entries named place) (o : Options) (before : σ) :
    entries ((readSource host o).run before).2 = entries before ∧
      named ((readSource host o).run before).2 = named before ∧
      ∀ source now, (readSource host o).run before = (.ok source, now) ↔
        (match o.input with
          | some path => host.readFile path
          | none => host.readInput).run before = (.ok source, now) := by
  unfold readSource
  cases o.input with
  | none =>
    dsimp only
    rw [run_bind]
    obtain ⟨same, sameNamed⟩ := transacts.readsInput before
    generalize host.readInput.run before = ended at same sameNamed
    obtain ⟨text, now⟩ := ended
    cases text with
    | error fault => exact ⟨same, sameNamed, fun _ _ => ⟨nofun, nofun⟩⟩
    | ok text =>
      exact ⟨same, sameNamed, fun _ _ => ⟨fun read => by cases read; rfl, fun read => by cases read; rfl⟩⟩
  | some path =>
    dsimp only
    rw [run_bind, run_readFile transacts]
    dsimp only
    generalize ((host.readFile path).run before).1 = text
    cases text with
    | error fault => exact ⟨rfl, rfl, fun _ _ => ⟨nofun, nofun⟩⟩
    | ok text => exact ⟨rfl, rfl, fun _ _ => ⟨fun read => by cases read; rfl, fun read => by cases read; rfl⟩⟩

/-! ### The ways a run ends -/

/-- What a success leaves behind: a verdict, the netlist on standard output, or the netlist at the place
that the output path names. -/
inductive Delivered (entries : σ → κ → Option Entry) (named : σ → String → Option κ)
    (config : Config) (source : String) (before : σ) (ended : Report × σ) : Prop where
  | checked {p : TypedProgram} (only : config.checkOnly = true) (sound : (check source).result = .ok p)
      (silent : ended.1.out = "") (same : entries ended.2 = entries before)
  | printed {n : Netlist} (full : config.checkOnly = false)
      (compiled : (compile config source).result = .ok n) (open_ : config.output = none)
      (out : Renders n config.format ended.1.out) (same : entries ended.2 = entries before)
  | written {n : Netlist} {path text : String} {target : κ} (full : config.checkOnly = false)
      (compiled : (compile config source).result = .ok n) (output : config.output = some path)
      (renders : Renders n config.format text) (silent : ended.1.out = "")
      (names : named before path = some target)
      (replaced : entries ended.2 =
        Function.update (entries before) target (some (.file text.toUTF8)))

/-- How a run ends that has its settings and its source. -/
theorem process_ends (transacts : host.Transacts entries named place) {verbosity : Nat}
    {config : Config} {source : String} {before now : σ} (same : entries now = entries before)
    (sameNamed : named now = named before) :
    (Quits entries before ((process host verbosity config source).run now) ∧
      ¬ Deliverable host config source now) ∨
    (((process host verbosity config source).run now).1.code = 0 ∧
      Delivered entries named config source before
        ((process host verbosity config source).run now)) := by
  unfold process Deliverable
  by_cases only : config.checkOnly = true
  · rw [if_pos only, if_pos only]
    show (Quits entries before (checkReport verbosity source, now) ∧ _) ∨
      ((checkReport verbosity source).code = 0 ∧
        Delivered entries named config source before (checkReport verbosity source, now))
    unfold checkReport
    dsimp only
    cases sound : (check source).result with
    | error e => exact .inl ⟨quits_failureReport same, nofun⟩
    | ok p => exact .inr ⟨rfl, .checked only sound rfl same⟩
  rw [if_neg only, if_neg only]
  have full : config.checkOnly = false := by simpa using only
  dsimp only
  cases compiled : (compile config source).result with
  | error e => exact .inl ⟨quits_failureReport same, by rintro ⟨_, _, ⟨⟩, _⟩⟩
  | ok n =>
    unfold deliver
    dsimp only
    cases output : config.output with
    | none => exact .inr ⟨rfl, .printed full compiled output (renders_iff.mpr rfl) same⟩
    | some path =>
      dsimp only
      rw [run_bind]
      rcases writeAtomically_ends transacts path (render config.format n) now with
        ⟨fault, ended, ran, kept, refused⟩ | ⟨target, ended, ran, names, replaced⟩
      · rw [ran]
        refine .inl ⟨quits_failureReport (kept.trans same), ?_⟩
        rintro ⟨_, text, ⟨⟩, renders, writable⟩
        cases renders_iff.mp renders
        exact refused (writable path rfl)
      · rw [ran]
        rw [sameNamed] at names
        rw [same] at replaced
        exact .inr ⟨rfl, .written full compiled output (renders_iff.mpr rfl) rfl names replaced⟩

/-- How a run ends: it quits where something fails, and else it has its settings and its source and
delivers. -/
theorem run_ends (transacts : host.Transacts entries named place) {args : List String} {o : Options}
    (accepted : parseArguments args = .ok (.run o)) (before : σ) :
    (Quits entries before ((run host args).run before) ∧ ∀ config source now,
      Prepared host o before config source now → ¬ Deliverable host config source now) ∨
    (((run host args).run before).1.code = 0 ∧ ∃ config source now,
      Prepared host o before config source now ∧
        Delivered entries named config source before ((run host args).run before)) := by
  unfold run
  rw [accepted]
  dsimp only
  obtain ⟨settings, loaded, isConfig⟩ := run_loadConfig transacts o before
  rw [run_bind, loaded]
  dsimp only
  cases settings with
  | error e =>
    refine .inl ⟨quits_failureReport rfl, fun config source now prepared => ?_⟩
    cases (isConfig config).mpr prepared.settings
  | ok config =>
    obtain ⟨same, sameNamed, isSource⟩ := run_readSource transacts o before
    dsimp only
    rw [run_bind]
    generalize (readSource host o).run before = reading at same sameNamed isSource
    obtain ⟨text, now⟩ := reading
    cases text with
    | error text =>
      refine .inl ⟨⟨by simp [errorReport], rfl, same⟩, fun config source now' prepared => ?_⟩
      cases (isSource source now').mpr prepared.source
    | ok source =>
      have prepared : Prepared host o before config source now :=
        ⟨(isConfig config).mp rfl, (isSource source now).mp rfl⟩
      rcases process_ends transacts same sameNamed with ⟨quits, refused⟩ | ⟨code, delivered⟩
      · refine .inl ⟨quits, fun config' source' now' other => ?_⟩
        cases (isConfig config').mpr other.settings
        cases (isSource source' now').mpr other.source
        exact refused
      · exact .inr ⟨code, config, source, now, prepared, delivered⟩

/-- A run that fails prints nothing on standard output and changes no file. One that succeeds has loaded
its settings, read its source and delivered what they ask for, once and to one place. Where no step
fails, a run succeeds. -/
theorem run_delivers (transacts : host.Transacts entries named place) {args : List String} {o : Options}
    (accepted : parseArguments args = .ok (.run o)) (before : σ) :
    (((run host args).run before).1.code ≠ 0 →
      ((run host args).run before).1.out = "" ∧ entries ((run host args).run before).2 = entries before) ∧
    (((run host args).run before).1.code = 0 → ∃ config source now,
      Prepared host o before config source now ∧
        Delivered entries named config source before ((run host args).run before)) ∧
    ∀ config source now, Prepared host o before config source now →
      Deliverable host config source now → ((run host args).run before).1.code = 0 := by
  rcases run_ends transacts accepted before with ⟨quits, refused⟩ | ⟨code, delivered⟩
  · exact ⟨fun _ => ⟨quits.silent, quits.same⟩, fun code => absurd code quits.code,
      fun config source now prepared deliverable =>
        absurd deliverable (refused config source now prepared)⟩
  · exact ⟨fun failed => absurd code failed, fun _ => delivered, fun _ _ _ _ _ => code⟩

/-- A source with settings that ask for JSON in the file `a.out`. -/
def configured : World where
  files := ⟨[(["accelc.toml"], "format = \"json\"\noutput = \"a.out\"\n".toUTF8),
    (["kernel.acc"], "decl a: ubit<8>[4 bank 2]; a[3] := 1;".toUTF8)]⟩

/-- The option names another file than the settings do, and only that one is made. -/
theorem run_delivers_configured : ∃ o config source now,
    parseArguments ["-o", "a.json", "-c", "accelc.toml", "kernel.acc"] = .ok (.run o) ∧
    ((run World.host ["-o", "a.json", "-c", "accelc.toml", "kernel.acc"]).run configured).1.code = 0 ∧
    Prepared World.host o configured config source now ∧ config.output = some "a.json" ∧
    Delivered World.entries (fun _ path => Files.named path) config source configured
      ((run World.host ["-o", "a.json", "-c", "accelc.toml", "kernel.acc"]).run configured) := by
  obtain ⟨_, accepted, rfl⟩ : ∃ request,
      parseArguments ["-o", "a.json", "-c", "accelc.toml", "kernel.acc"] = .ok request ∧
        id request = .run ⟨"kernel.acc", "accelc.toml", "a.json", false, false, false, none, 0⟩ :=
    exists_ok_of_map (by decide +kernel)
  have code : ((run World.host ["-o", "a.json", "-c", "accelc.toml", "kernel.acc"]).run
      configured).1.code = 0 := by
    decide +kernel
  obtain ⟨_, delivers, _⟩ := run_delivers World.transacts accepted configured
  obtain ⟨config, source, now, prepared, delivered⟩ := delivers code
  obtain ⟨base, overrides, _⟩ := prepared.settings
  exact ⟨_, config, source, now, accepted, code, prepared, overrides.output, delivered⟩

end CommandLine

end BankedLoops
