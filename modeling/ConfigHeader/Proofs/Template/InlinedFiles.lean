import ConfigHeader.Proofs.KeyMapLookup
import ConfigHeader.Proofs.Template.Occurrences
import ConfigHeader.Proofs.TextOrder

namespace ConfigHeader.Template

variable {content : Bytes}

section Substitution

variable {substitutions : KeyMap Bytes}

/-- Replaces one search string, unless it is empty. -/
def substituteEntry (content : Bytes) (entry : String × Bytes) : Bytes :=
  if entry.1 = "" then content else replaceLiteral content (textBytes entry.1) entry.2

/-- Replaces search strings by bytes, one after another in the order of their bytes. -/
def substituteBytes (substitutions : KeyMap Bytes) (content : Bytes) : Bytes :=
  substitutions.entries.foldl substituteEntry content

theorem substituteTexts_eq (substitutions : KeyMap String) (content : Bytes) :
    substituteTexts substitutions content =
      substituteBytes (substitutions.mapValues textBytes) content := by
  rw [substituteTexts, substituteBytes, KeyMap.mapValues, List.foldl_map]
  rfl

/-- What holds of a content and is kept by every substitution holds of the result. -/
theorem substituteBytes_induction {motive : Bytes → Prop} (start : motive content)
    (step : ∀ entry ∈ substitutions.entries, entry.1 ≠ "" → ∀ content, motive content →
      motive (replaceLiteral content (textBytes entry.1) entry.2)) :
    motive (substituteBytes substitutions content) := by
  rw [substituteBytes]
  revert step
  generalize substitutions.entries = entries
  intro step
  induction entries generalizing content with
  | nil => exact start
  | cons entry entries ih =>
    have later : motive (substituteEntry content entry) := by
      rw [substituteEntry]
      split
      · exact start
      · rename_i filled
        exact step entry List.mem_cons_self filled content start
    exact ih later fun other member => step other (List.mem_cons_of_mem _ member)

end Substitution

section Inlining

variable {FilePath FileFault : Type} {read : FilePath → Except FileFault Bytes}
  {inlines : KeyMap FilePath}

/-- The content of a file, or nothing if it cannot be read. -/
def fileBytes (read : FilePath → Except FileFault Bytes) (path : FilePath) : Bytes :=
  (read path).toOption.getD []

/-- The file can be read, unless its search string is empty, so that it is not asked for. -/
def Available (read : FilePath → Except FileFault Bytes) (entry : String × FilePath) : Prop :=
  entry.1 ≠ "" → ∃ bytes, read entry.2 = .ok bytes

/-- The search string is the first, in the order of bytes, whose file is asked for and cannot be
read. -/
structure FirstUnavailable (read : FilePath → Except FileFault Bytes) (inlines : KeyMap FilePath)
    (failure : InlineFailure FilePath FileFault) : Prop where
  listed : (failure.search, failure.path) ∈ inlines.entries
  filled : failure.search ≠ ""
  unreadable : read failure.path = .error failure.fault
  earlier : ∀ entry ∈ inlines.entries, textBytes entry.1 < textBytes failure.search →
    Available read entry

theorem FirstUnavailable.not_available {failure : InlineFailure FilePath FileFault}
    (first : FirstUnavailable read inlines failure) :
    ¬ Available read (failure.search, failure.path) := by
  intro available
  obtain ⟨bytes, found⟩ := available first.filled
  cases found.symm.trans first.unreadable

theorem FirstUnavailable.unique {failure other : InlineFailure FilePath FileFault}
    (first : FirstUnavailable read inlines failure) (first' : FirstUnavailable read inlines other) :
    failure = other := by
  rcases Std.lt_trichotomy failure.search other.search with less | same | greater
  · exact absurd (first'.earlier _ first.listed (textBytes_lt_iff.mpr less)) first.not_available
  · have found := KeyMap.mem_entries_iff.mp first.listed
    rw [same, KeyMap.mem_entries_iff.mp first'.listed] at found
    have paths : failure.path = other.path := (Option.some.inj found).symm
    have faults := first.unreadable
    rw [paths, first'.unreadable] at faults
    cases failure
    cases other
    simp_all
  · exact absurd (first.earlier _ first'.listed (textBytes_lt_iff.mpr greater)) first'.not_available

/-- The inlining of one file, unless its search string is empty. -/
def inlineEntry (read : FilePath → Except FileFault Bytes) (content : Bytes)
    (entry : String × FilePath) : Except (InlineFailure FilePath FileFault) Bytes :=
  if entry.1 = "" then .ok content
  else
    match read entry.2 with
    | .ok replacement => .ok (inlineAll content (textBytes entry.1) replacement)
    | .error fault => .error ⟨entry.1, entry.2, fault⟩

theorem inlineFiles_eq (content : Bytes) :
    inlineFiles read inlines content = inlines.entries.foldlM (inlineEntry read) content := rfl

/-- A file is inlined as its content is substituted, or it cannot be read. -/
theorem inlineEntry_cases (read : FilePath → Except FileFault Bytes) (content : Bytes)
    (entry : String × FilePath) :
    (Available read entry ∧ inlineEntry read content entry =
      .ok (substituteEntry content (entry.1, fileBytes read entry.2))) ∨
    (entry.1 ≠ "" ∧ ∃ fault, read entry.2 = .error fault ∧
      inlineEntry read content entry = .error ⟨entry.1, entry.2, fault⟩) := by
  by_cases empty : entry.1 = ""
  · refine .inl ⟨fun filled => absurd empty filled, ?_⟩
    rw [inlineEntry, substituteEntry, if_pos empty, if_pos empty]
  · cases found : read entry.2 with
    | ok bytes =>
      refine .inl ⟨fun _ => ⟨bytes, found⟩, ?_⟩
      have held : fileBytes read entry.2 = bytes := by rw [fileBytes, found]; rfl
      rw [inlineEntry, substituteEntry, if_neg empty, if_neg empty, found, held,
        ← inlineAll_eq_replaceLiteral (textBytes_ne_nil empty)]
    | error fault =>
      refine .inr ⟨empty, fault, rfl, ?_⟩
      rw [inlineEntry, if_neg empty, found]

/-- A run over files ends with the first one that cannot be read, or it comes to the substitution of
their contents. -/
theorem foldlM_inlineEntry_cases (read : FilePath → Except FileFault Bytes)
    (entries : List (String × FilePath)) (content : Bytes) :
    ((∀ entry ∈ entries, Available read entry) ∧ entries.foldlM (inlineEntry read) content =
      .ok ((entries.map fun entry => (entry.1, fileBytes read entry.2)).foldl substituteEntry
        content)) ∨
    ∃ before entry after fault, entries = before ++ entry :: after ∧
      (∀ other ∈ before, Available read other) ∧ entry.1 ≠ "" ∧ read entry.2 = .error fault ∧
      entries.foldlM (inlineEntry read) content = .error ⟨entry.1, entry.2, fault⟩ := by
  induction entries generalizing content with
  | nil => exact .inl ⟨by simp, rfl⟩
  | cons entry entries ih =>
    rw [List.foldlM_cons]
    rcases inlineEntry_cases read content entry with
      ⟨available, inlined⟩ | ⟨filled, fault, unreadable, failed⟩
    · rw [inlined]
      rcases ih (substituteEntry content (entry.1, fileBytes read entry.2)) with
        ⟨others, run⟩ | ⟨before, failing, after, fault, rfl, others, filled, unreadable, run⟩
      · exact .inl ⟨List.forall_mem_cons.mpr ⟨available, others⟩, run⟩
      · exact .inr ⟨entry :: before, failing, after, fault, rfl,
          List.forall_mem_cons.mpr ⟨available, others⟩, filled, unreadable, run⟩
    · refine .inr ⟨[], entry, entries, fault, rfl, by simp, filled, unreadable, ?_⟩
      rw [failed]
      rfl

theorem inlineFiles_cases (read : FilePath → Except FileFault Bytes) (inlines : KeyMap FilePath)
    (content : Bytes) :
    ((∀ entry ∈ inlines.entries, Available read entry) ∧ inlineFiles read inlines content =
      .ok (substituteBytes (inlines.mapValues (fileBytes read)) content)) ∨
    ∃ failure, FirstUnavailable read inlines failure ∧
      inlineFiles read inlines content = .error failure := by
  rw [inlineFiles_eq]
  rcases foldlM_inlineEntry_cases read inlines.entries content with
    run | ⟨before, entry, after, fault, parts, others, filled, unreadable, run⟩
  · exact .inl run
  · refine .inr ⟨_, ⟨by simp [parts], filled, unreadable, fun other member less => ?_⟩, run⟩
    have sorted := inlines.sorted
    rw [parts] at sorted member
    have above := (List.pairwise_cons.mp (List.pairwise_append.mp sorted).2.1).1
    have below := textBytes_lt_iff.mp less
    rcases List.mem_append.mp member with earlier | here
    · exact others other earlier
    · rcases List.mem_cons.mp here with rfl | later
      · exact absurd below Std.lt_irrefl
      · exact absurd (Std.lt_trans below (above other later)) Std.lt_irrefl

theorem inlineFiles_of_available (available : ∀ entry ∈ inlines.entries, Available read entry)
    (content : Bytes) : inlineFiles read inlines content =
      .ok (substituteBytes (inlines.mapValues (fileBytes read)) content) := by
  rcases inlineFiles_cases read inlines content with ⟨-, run⟩ | ⟨failure, first, -⟩
  · exact run
  · exact absurd (available _ first.listed) first.not_available

theorem inlineFiles_eq_ok_iff {result : Bytes} :
    inlineFiles read inlines content = .ok result ↔
      (∀ entry ∈ inlines.entries, Available read entry) ∧
        result = substituteBytes (inlines.mapValues (fileBytes read)) content := by
  constructor
  · intro inlined
    rcases inlineFiles_cases read inlines content with ⟨available, run⟩ | ⟨failure, -, run⟩
    · exact ⟨available, Except.ok.inj (inlined.symm.trans run)⟩
    · cases inlined.symm.trans run
  · rintro ⟨available, rfl⟩
    exact inlineFiles_of_available available content

/-- Files are inlined exactly if each that is asked for can be read, whether its search string occurs
or not, and then as their contents are substituted; otherwise the first that cannot be read is told. -/
theorem inlineFiles_agrees_with_substitution (read : FilePath → Except FileFault Bytes)
    (inlines : KeyMap FilePath) (content : Bytes) :
    (∀ result, inlineFiles read inlines content = .ok result ↔
      (∀ entry ∈ inlines.entries, Available read entry) ∧
        result = substituteBytes (inlines.mapValues (fileBytes read)) content) ∧
    (∀ failure, inlineFiles read inlines content = .error failure ↔
      FirstUnavailable read inlines failure) ∧
    ∀ substitutions : KeyMap String, substituteTexts substitutions content =
      substituteBytes (substitutions.mapValues textBytes) content := by
  refine ⟨fun result => inlineFiles_eq_ok_iff, fun failure => ⟨fun failed => ?_, fun first => ?_⟩,
    fun substitutions => substituteTexts_eq substitutions content⟩
  · rcases inlineFiles_cases read inlines content with ⟨-, run⟩ | ⟨failure', first, run⟩
    · cases failed.symm.trans run
    · rwa [Except.error.inj (failed.symm.trans run)]
  · rcases inlineFiles_cases read inlines content with ⟨available, -⟩ | ⟨failure', first', run⟩
    · exact absurd (available _ first.listed) first.not_available
    · rw [run, first.unique first']

end Inlining

end ConfigHeader.Template
