import Scaffold.Command.Basic
import Scaffold.Proofs.Capture.Captured
import Scaffold.Proofs.Job
import Scaffold.Proofs.Value.Asked
import Scaffold.Proofs.Value.Shown
import Scaffold.Registry.Memory

/-!
# Buffers that are kept

A buffer that comes back as it was shown says what it shows, but for the white space around
each value: every argument has the value that it had, or its default, trimmed. So an
interactive instantiation whose buffers are kept is the plain one with trimmed values. Values
with a line feed are not looked at here.
-/

namespace Scaffold

open FileSystem Placeholder

variable {c : Contract} {a : Argument} {values final : Values} {v t : Text}

/-- Every argument has a value or a default, which is not blank and has no line feed. -/
def Contract.IsFilled (c : Contract) (values : Values) : Prop :=
  ∀ a ∈ c, '\n' ∉ Buffer.shownValue values a ∧ Text.trim (Buffer.shownValue values a) ≠ []

/-- No value or default of an argument has white space at an end. -/
def Contract.IsTrimmed (c : Contract) (values : Values) : Prop :=
  ∀ a ∈ c, Text.trim (Buffer.shownValue values a) = Buffer.shownValue values a

/-- The user takes a turn, and returns every buffer as it is. -/
structure Prompt.Keeps (p : Prompt) : Prop where
  turn : p.turns ≠ []
  unchanged : ∀ turn ∈ p.turns, ∀ buffer, turn.reply buffer = .ok buffer

/-- The values with which every argument comes out trimmed. -/
def Contract.Trims (c : Contract) (values final : Values) : Prop :=
  ∀ a ∈ c, final.valueOf a = .ok (Text.trim (Buffer.shownValue values a))

/-- Where every argument is filled, what a buffer shows leaves no name empty. -/
theorem Buffer.exists_parse_render (spellable : ∀ a ∈ c, IsSpellable a) (once : c.names.Nodup)
    (filled : c.IsFilled values) : ∃ edited, parse (render c values) = .ok edited
      ∧ edited.missing = []
      ∧ ∀ a ∈ c, edited.get? a.name = some (some (Text.trim (shownValue values a))) := by
  refine ⟨_, parse_render (fun a mem => (spellable a mem).name) fun a mem => (filled a mem).1, ?_,
    fun a mem => ?_⟩
  · rw [List.eq_nil_iff_forall_not_mem]
    intro name mem
    have empty := SortedMap.mem_of_get?_ofList (EditedValues.mem_missing_iff.1 mem)
    obtain ⟨a, there, same⟩ := List.mem_map.1 empty
    rw [saidOf, if_neg (filled a there).2] at same
    exact absurd (congrArg Prod.snd same) (Option.some_ne_none _)
  · have distinct : ((c.map (saidOf values)).map Prod.fst).Nodup := map_fst_saidOf values c ▸ once
    refine SortedMap.get?_ofList_of_mem distinct (List.mem_map.2 ⟨a, mem, ?_⟩)
    rw [saidOf, if_neg (filled a mem).2]

/-- A user who keeps the buffer is asked nothing, and every argument has its trimmed value. -/
theorem Prompt.Keeps.exists_ask {ρ : Type} {p : Prompt} {w : Workspace ρ} (keeps : p.Keeps)
    (spellable : ∀ a ∈ c, IsSpellable a) (once : c.names.Nodup) (filled : c.IsFilled values) :
    ∃ final, p.ask c values w = .ok final { w with transcript :=
        ⟨w.transcript.shown ++ [Buffer.render c values], w.transcript.asked⟩ }
      ∧ c.Trims values final := by
  obtain ⟨turn, more, taken⟩ := List.exists_cons_of_ne_nil keeps.turn
  have kept : turn.reply (Buffer.render c values) = .ok (Buffer.render c values) :=
    keeps.unchanged turn (taken ▸ List.mem_cons_self) _
  obtain ⟨edited, read, complete, said⟩ := Buffer.exists_parse_render spellable once filled
  have ends : Ends c p.exhausted values (turn :: more) (.ok (edited.onto values)) [] :=
    .complete ⟨_, kept, read⟩ complete
  refine ⟨edited.onto values, ?_, fun a mem => ?_⟩
  · rw [Prompt.ask, taken, ends.askValues, List.append_nil]
  · rw [Values.valueOf_ok_iff, EditedValues.get?_onto, said a mem]
    rfl

/-! ## Trimming values first -/

/-- The assignment without white space around its value. -/
def Values.trimAssignment (t : Text) : Text :=
  match Text.cut? '=' t with
  | some (name, value) => name ++ '=' :: Text.trim value
  | none => t

theorem Values.parseAssignment_trimAssignment {name value : Text}
    (h : parseAssignment t = .ok (name, value)) :
    parseAssignment (trimAssignment t) = .ok (name, Text.trim value) := by
  unfold parseAssignment at h
  split at h
  · rename_i before after cut
    split at h
    · simp at h
    · rename_i named
      obtain ⟨rfl, rfl⟩ := Prod.mk.inj (Except.ok.inj h)
      have trimmed : trimAssignment t = before ++ '=' :: Text.trim after := by
        simp only [trimAssignment, cut]
      simp only [trimmed, parseAssignment, Text.cut?_append (Text.not_mem_of_cut? cut), named,
        if_false]
  · simp at h

private theorem exists_foldlM_trimmed {ts : List Text} {found found' : Values}
    (trimmed : ∀ n, found'.get? n = (found.get? n).map Text.trim)
    (parsed : (ts.foldlM (fun values t => do
        let (name, value) ← Values.parseAssignment t
        return values.insert name value) found : Except Error Values) = .ok values) :
    ∃ values', ((ts.map Values.trimAssignment).foldlM (fun values t => do
        let (name, value) ← Values.parseAssignment t
        return values.insert name value) found' : Except Error Values) = .ok values'
      ∧ ∀ n, values'.get? n = (values.get? n).map Text.trim := by
  induction ts generalizing found found' with
  | nil =>
    obtain rfl := Except.ok.inj parsed
    exact ⟨found', rfl, trimmed⟩
  | cons t ts ih =>
    rw [List.foldlM_cons] at parsed
    cases read : Values.parseAssignment t with
    | error e =>
      rw [read] at parsed
      simp [bind, Except.bind] at parsed
    | ok entry =>
      obtain ⟨name, value⟩ := entry
      rw [read] at parsed
      rw [List.map_cons, List.foldlM_cons, Values.parseAssignment_trimAssignment read]
      refine ih (fun n => ?_) parsed
      rw [SortedMap.get?_insert, SortedMap.get?_insert, trimmed]
      split <;> rfl

/-- Assignments without white space around their values give the trimmed values. -/
theorem Values.exists_parseAssignments_trimmed {assignments : List Text}
    (parsed : parseAssignments assignments = .ok values) :
    ∃ values', parseAssignments (assignments.map trimAssignment) = .ok values'
      ∧ ∀ n, values'.get? n = (values.get? n).map Text.trim :=
  exists_foldlM_trimmed (fun _ => rfl) parsed

/-! ## The values that are written -/

theorem Contract.IsFilled.valueOf (filled : c.IsFilled values) (mem : a ∈ c) :
    values.valueOf a = .ok (Buffer.shownValue values a) := by
  rw [Values.valueOf_ok_iff]
  have given := (filled a mem).2
  unfold Buffer.shownValue at given ⊢
  cases value : (values.get? a.name).or a.default? with
  | none =>
    rw [value] at given
    exact absurd rfl given
  | some v => rfl

theorem Contract.IsFilled.trims_of_isTrimmed (filled : c.IsFilled values)
    (trimmed : c.IsTrimmed values) : c.Trims values values := by
  intro a mem
  rw [filled.valueOf mem, trimmed a mem]

/-- Trimming the values that are given is enough, since defaults have no white space. -/
theorem Contract.IsFilled.trims_of_map (filled : c.IsFilled values)
    (spellable : ∀ a ∈ c, IsSpellable a)
    (trimmed : ∀ n, final.get? n = (values.get? n).map Text.trim) : c.Trims values final := by
  intro a mem
  have value := Values.valueOf_ok_iff.1 (filled.valueOf mem)
  rw [Values.valueOf_ok_iff, trimmed]
  cases given : values.get? a.name with
  | some v =>
    rw [given, Option.some_or] at value
    rw [Option.map_some, Option.some_or, Option.some.inj value]
  | none =>
    rw [given, Option.none_or] at value
    have solid : ∀ c ∈ Buffer.shownValue values a, isBlank c = false := by
      intro c inside
      have char := ((spellable a mem).default _ value).2 c inside
      simpa using (Bool.and_eq_true_iff.1 char).1
    rw [Option.map_none, Option.none_or, value, Text.trim_eq_self solid]

/-- The arguments of a captured template can be spelled by tokens. -/
theorem Template.IsCaptured.isSpellable {t : Template} (h : t.IsCaptured) :
    ∀ a ∈ t.arguments, IsSpellable a :=
  Contract.isSpellable_of_extract h.extract_eq

/-- What is reported for an argument is the value that it has in the end. -/
theorem get?_values_of_instantiate {t : Template} {target : Path} {fs fs' : FileSystem}
    {report : Report} (once : t.arguments.names.Nodup) (mem : a ∈ t.arguments)
    (value : values.valueOf a = .ok v)
    (written : instantiate t target values fs = .ok report fs') :
    report.values.get? a.name = some v := by
  obtain ⟨resolved, plan, _, _, _, prepared, _, _, _, rfl⟩ := instantiate_ok written
  have done := (prepare_ok prepared).1
  rw [Contract.get?_resolved once done, Contract.get?_of_mem once mem]
  exact Values.valueOf_ok_iff.1 value

/-! ## Commands -/

namespace Job

variable {ρ α : Type}

/-- A result without what the user was shown and asked on the way to it. -/
def unseen : EStateM.Result Error (Workspace ρ) α → EStateM.Result Error (Workspace ρ) α
  | .ok a w => .ok a { w with transcript := .empty }
  | .error e w => .error e { w with transcript := .empty }

theorem unseen_onFiles (x : Action α) (w : Workspace ρ) (seen : Transcript) :
    unseen (onFiles x { w with transcript := seen }) = unseen (onFiles x w) := by
  unfold onFiles
  dsimp only
  cases x w.files <;> rfl

theorem exists_ok_of_unseen {x y : EStateM.Result Error (Workspace ρ) α} {a : α} {w : Workspace ρ}
    (same : unseen x = unseen y) (ok : x = .ok a w) : ∃ w', y = .ok a w' := by
  subst ok
  cases y with
  | ok b w' =>
    simp only [unseen, EStateM.Result.ok.injEq] at same
    exact ⟨w', by rw [same.1]⟩
  | error e w' => simp [unseen] at same

end Job

section

variable {ρ : Type} [Registry ρ] {w w₀ w₁ : Workspace ρ} {name : TemplateName}
  {stored : StoredTemplate} {prompt : FileSystem → Prompt} {target : Path}
  {assignments : List Text}

/-- An instantiation that asks for nothing writes the template with what is assigned. -/
theorem Command.instantiate_of_plain
    (got : (Registry.get name : Job ρ StoredTemplate) w = .ok stored w₀)
    (available : Instantiation.checkTarget target w₀.files = .ok () w₀.files)
    (parsed : Values.parseAssignments assignments = .ok values) {interactive : Bool}
    (plain : ¬ (interactive = true ∧ stored.template.arguments ≠ [])) :
    Command.instantiate prompt ⟨name.text, target, assignments, interactive⟩ w
      = Job.onFiles (Scaffold.instantiate stored.template target values) w₀ := by
  unfold Command.instantiate
  rw [bind_of_ok (Job.check_ok_iff.2 ⟨TemplateName.ofText_text name, rfl⟩), bind_of_ok got,
    bind_of_ok (Job.onFiles_ok_iff.2 ⟨_, available, rfl⟩),
    bind_of_ok (Job.check_ok_iff.2 ⟨parsed, rfl⟩), bind_of_ok (get_ok_iff.2 ⟨rfl, rfl⟩)]
  dsimp only
  rw [if_neg plain]
  rfl

/-- An instantiation that asks for values writes the template with what it is told. -/
theorem Command.instantiate_of_asked
    (got : (Registry.get name : Job ρ StoredTemplate) w = .ok stored w₀)
    (available : Instantiation.checkTarget target w₀.files = .ok () w₀.files)
    (parsed : Values.parseAssignments assignments = .ok values)
    (some : stored.template.arguments ≠ [])
    (asked : (prompt w₀.files).ask stored.template.arguments values w₀ = .ok final w₁) :
    Command.instantiate prompt ⟨name.text, target, assignments, true⟩ w
      = Job.onFiles (Scaffold.instantiate stored.template target final) w₁ := by
  unfold Command.instantiate
  rw [bind_of_ok (Job.check_ok_iff.2 ⟨TemplateName.ofText_text name, rfl⟩), bind_of_ok got,
    bind_of_ok (Job.onFiles_ok_iff.2 ⟨_, available, rfl⟩),
    bind_of_ok (Job.check_ok_iff.2 ⟨parsed, rfl⟩), bind_of_ok (get_ok_iff.2 ⟨rfl, rfl⟩)]
  dsimp only
  rw [if_pos ⟨rfl, some⟩]
  exact bind_of_ok asked

/-- Two sets of values that are the same for the contract of a captured template are written
alike. -/
theorem instantiate_congr_of_trims {t : Template} {final' : Values} (h : t.IsCaptured)
    (trims : t.arguments.Trims values final) (trims' : t.arguments.Trims values final') :
    Scaffold.instantiate t target final = Scaffold.instantiate t target final' := by
  have prepared : Instantiation.prepare t target final = Instantiation.prepare t target final' :=
    Instantiation.prepare_congr_valueOf h fun a mem => (trims a mem).trans (trims' a mem).symm
  simp only [Scaffold.instantiate, prepared]

/-- An interactive instantiation whose buffers are kept is the one with trimmed values. -/
theorem Command.unseen_instantiate_of_keeps
    (got : (Registry.get name : Job ρ StoredTemplate) w = .ok stored w₀)
    (captured : stored.template.IsCaptured)
    (available : Instantiation.checkTarget target w₀.files = .ok () w₀.files)
    (parsed : Values.parseAssignments assignments = .ok values)
    (filled : stored.template.arguments.IsFilled values) (keeps : (prompt w₀.files).Keeps)
    (trims : stored.template.arguments.Trims values final) :
    Job.unseen (Command.instantiate prompt ⟨name.text, target, assignments, true⟩ w)
      = Job.unseen (Job.onFiles (Scaffold.instantiate stored.template target final) w₀) := by
  by_cases none : stored.template.arguments = []
  · have same : Scaffold.instantiate stored.template target values
        = Scaffold.instantiate stored.template target final := by
      have prepared : Instantiation.prepare stored.template target values
          = Instantiation.prepare stored.template target final :=
        Instantiation.prepare_congr_valueOf captured (by simp [none])
      simp only [Scaffold.instantiate, prepared]
    rw [instantiate_of_plain got available parsed (by simp [none]), same]
  · obtain ⟨told, asked, trims'⟩ := keeps.exists_ask (w := w₀) captured.isSpellable
      (Contract.nodup_names_of_extract captured.extract_eq) filled
    rw [instantiate_of_asked got available parsed none asked, Job.unseen_onFiles,
      instantiate_congr_of_trims captured trims' trims]

/-- Keeping the buffer as it is shown is the same as giving the assignments without white
space around their values: what is reported and what is written is the same, and only the
user has seen a buffer. So it is the same as not opening the buffer exactly if the values of
the arguments have no white space around them. -/
theorem instantiate_of_keeps
    (got : (Registry.get name : Job ρ StoredTemplate) w = .ok stored w₀)
    (captured : stored.template.IsCaptured)
    (available : Instantiation.checkTarget target w₀.files = .ok () w₀.files)
    (parsed : Values.parseAssignments assignments = .ok values)
    (filled : stored.template.arguments.IsFilled values) (keeps : (prompt w₀.files).Keeps) :
    Job.unseen (Command.instantiate prompt ⟨name.text, target, assignments, true⟩ w)
        = Job.unseen (Command.instantiate prompt
          ⟨name.text, target, assignments.map Values.trimAssignment, false⟩ w)
      ∧ (stored.template.arguments.IsTrimmed values →
        Job.unseen (Command.instantiate prompt ⟨name.text, target, assignments, true⟩ w)
          = Job.unseen (Command.instantiate prompt ⟨name.text, target, assignments, false⟩ w))
      ∧ ∀ report w₁ report' w₂,
        Command.instantiate prompt ⟨name.text, target, assignments, true⟩ w = .ok report w₁ →
        Command.instantiate prompt ⟨name.text, target, assignments, false⟩ w = .ok report' w₂ →
        (report.values = report'.values ↔ stored.template.arguments.IsTrimmed values) := by
  have once := Contract.nodup_names_of_extract captured.extract_eq
  obtain ⟨trimmed, read, eq⟩ := Values.exists_parseAssignments_trimmed parsed
  have trims := filled.trims_of_map captured.isSpellable eq
  have interactive {final : Values} (trims : stored.template.arguments.Trims values final) :=
    Command.unseen_instantiate_of_keeps got captured available parsed filled keeps trims
  have plain : Command.instantiate prompt ⟨name.text, target, assignments, false⟩ w
      = Job.onFiles (Scaffold.instantiate stored.template target values) w₀ :=
    Command.instantiate_of_plain got available parsed (by simp)
  have unopened (clean : stored.template.arguments.IsTrimmed values) :
      Job.unseen (Command.instantiate prompt ⟨name.text, target, assignments, true⟩ w)
        = Job.unseen (Command.instantiate prompt ⟨name.text, target, assignments, false⟩ w) := by
    rw [interactive (filled.trims_of_isTrimmed clean), plain]
  refine ⟨?_, unopened, fun report w₁ report' w₂ ran ran' => ⟨fun same a mem => ?_, ?_⟩⟩
  · rw [interactive trims, Command.instantiate_of_plain got available read (by simp)]
  · obtain ⟨_, written⟩ := Job.exists_ok_of_unseen (interactive trims) ran
    obtain ⟨_, written, _⟩ := Job.onFiles_ok_iff.1 written
    obtain ⟨_, written', _⟩ := Job.onFiles_ok_iff.1 (plain ▸ ran')
    have shown := get?_values_of_instantiate once mem (trims a mem) written
    have raw := get?_values_of_instantiate once mem (filled.valueOf mem) written'
    rw [same, raw] at shown
    exact (Option.some.inj shown).symm
  · intro clean
    obtain ⟨_, ran''⟩ := Job.exists_ok_of_unseen (unopened clean) ran
    rw [ran'] at ran''
    injection ran'' with same
    rw [same]

end

/-- The name under which a registry keeps the template of a project. -/
def packageName : TemplateName := ⟨"package".toList, by decide⟩

/-- The project, and a registry in memory with its template. -/
def packageWorkspace : Workspace MemoryRegistry :=
  let origin : Origin := ⟨pathOf packageRoot, "/templates".toList, []⟩
  ⟨⟨.insert .empty packageName (origin.record packageName none, packageTemplate)⟩, package,
    ⟨⟨1970, 1, 1⟩, 0, 0, 0, 0⟩, .empty⟩

/-- A user who keeps one buffer and takes no second turn. -/
def keepOnce (_ : FileSystem) : Prompt := .scripted [none] []

theorem keeps_keepOnce (fs : FileSystem) : (keepOnce fs).Keeps :=
  ⟨by simp [keepOnce, Prompt.scripted], by simp [keepOnce, Prompt.scripted]⟩

/-- Write the template of the project with a value for the name of its directory. -/
def writePackage (value : Text) (interactive : Bool) : Job MemoryRegistry Report :=
  Command.instantiate keepOnce
    ⟨packageName.text, "out".toList, ["pkg=".toList ++ value], interactive⟩

theorem get_package : ∃ stored, (Registry.get packageName : Job MemoryRegistry StoredTemplate)
      packageWorkspace = .ok stored packageWorkspace ∧ stored.template = packageTemplate :=
  ⟨_, rfl, rfl⟩

theorem checkTarget_package : Instantiation.checkTarget "out".toList packageWorkspace.files
    = .ok () packageWorkspace.files := by
  obtain ⟨_, fs, free⟩ : ∃ a fs,
      Instantiation.checkTarget "out".toList packageWorkspace.files = .ok a fs := by
    decide +kernel
  obtain ⟨rfl, _⟩ := checkTarget_ok free
  exact free

/-- With a value that has white space in front of it, the kept buffer gives the value without. -/
theorem instantiate_of_keeps_package :
    ∃ stored values, (Registry.get packageName : Job MemoryRegistry StoredTemplate)
        packageWorkspace = .ok stored packageWorkspace
      ∧ stored.template.IsCaptured
      ∧ Values.parseAssignments ["pkg= src".toList] = .ok values
      ∧ stored.template.arguments.IsFilled values
      ∧ Job.unseen (writePackage " src".toList true packageWorkspace)
        = Job.unseen (writePackage "src".toList false packageWorkspace) := by
  obtain ⟨stored, got, same⟩ := get_package
  have captured : stored.template.IsCaptured := same ▸ isCaptured_package
  have parsed : Values.parseAssignments ["pkg= src".toList]
      = .ok (.insert .empty "pkg".toList " src".toList) := rfl
  have filled : stored.template.arguments.IsFilled (.insert .empty "pkg".toList " src".toList) := by
    rw [same]
    unfold Contract.IsFilled
    decide +kernel
  refine ⟨stored, _, got, captured, parsed, filled, ?_⟩
  exact (instantiate_of_keeps got captured checkTarget_package parsed filled
    (keeps_keepOnce package)).1

/-- Although every argument has a value, the buffer that is kept loses white space in front of
a value, is no answer if the value is blank, and cannot be read if the value goes over the end
of a line. Without the buffer all of these are written. -/
theorem exists_kept_differs :
    packageTemplate.IsCaptured
      ∧ (∃ report w, writePackage " src".toList true packageWorkspace = .ok report w
        ∧ report.values.get? "pkg".toList = some "src".toList)
      ∧ (∃ report w, writePackage " src".toList false packageWorkspace = .ok report w
        ∧ report.values.get? "pkg".toList = some " src".toList)
      ∧ (∃ e w, writePackage " ".toList true packageWorkspace = .error e w ∧ e = .cancelled)
      ∧ (∃ report w, writePackage " ".toList false packageWorkspace = .ok report w)
      ∧ (∃ e w, writePackage "a\nb".toList true packageWorkspace = .error e w
        ∧ e = .malformedLine "b".toList)
      ∧ ∃ report w, writePackage "a\nb".toList false packageWorkspace = .ok report w := by
  refine ⟨isCaptured_package, ?_⟩
  decide +kernel

end Scaffold
