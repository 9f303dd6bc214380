import LayeredConfig.Combined.Invocation
import LayeredConfig.Proofs.Location.Way
import LayeredConfig.Proofs.Value.KeyPath

namespace LayeredConfig

/-- The paths of the fields that tell about the invocation. -/
def invocationPaths : List (List String) :=
  [rootDirPath, configPathPath, workspaceDirPath, shellDirPath]

/-- What stands under each of these paths for a workspace and a root document. -/
def invocationField (workspace root : Location) (path : List String) : Value :=
  .string (if path = configPathPath then (root.relativeTo workspace).slashed else workspace.slashed)

theorem withInvocation_eq_foldl (merged : Fields) (workspace root : Location) :
    withInvocation merged workspace root =
      invocationPaths.foldl (fun fields path =>
        setAt fields path (invocationField workspace root path)) merged := by
  simp only [invocationPaths, List.foldl_cons, List.foldl_nil]
  rfl

section SetInTurn

variable {paths : List (List String)} {value : List String → Value}

theorem valueAt?_foldl_setAt_of_apart {other : List String}
    (apart : ∀ path ∈ paths, ¬other <+: path ∧ ¬path <+: other) (fields : Fields) :
    valueAt? (paths.foldl (fun fields path => setAt fields path (value path)) fields) other =
      valueAt? fields other := by
  induction paths generalizing fields with
  | nil => rfl
  | cons path rest ih =>
    obtain ⟨before, behind⟩ := apart path List.mem_cons_self
    rw [List.foldl_cons, ih fun p member => apart p (List.mem_cons_of_mem _ member),
      valueAt?_setAt_of_apart before behind]

/-- Where none of several paths leads to another, each of them has the value it was set to. -/
theorem valueAt?_foldl_setAt (apart : paths.Pairwise fun a b => ¬a <+: b ∧ ¬b <+: a) (nonempty : [] ∉ paths)
    {path : List String} (member : path ∈ paths) (fields : Fields) :
    valueAt? (paths.foldl (fun fields path => setAt fields path (value path)) fields) path =
      some (value path) := by
  induction paths generalizing fields with
  | nil => cases member
  | cons first rest ih =>
    obtain ⟨own, later⟩ := List.pairwise_cons.mp apart
    simp only [List.mem_cons, not_or] at nonempty
    rw [List.foldl_cons]
    rcases List.mem_cons.mp member with rfl | inside
    · rw [valueAt?_foldl_setAt_of_apart own, valueAt?_setAt_self (Ne.symm nonempty.1)]
    · exact ih later nonempty.2 inside _

theorem foldl_setAt_of_valueAt? {fields : Fields}
    (stand : ∀ path ∈ paths, valueAt? fields path = some (value path)) :
    paths.foldl (fun fields path => setAt fields path (value path)) fields = fields := by
  induction paths with
  | nil => rfl
  | cons path rest ih =>
    rw [List.foldl_cons, setAt_of_valueAt? (stand path List.mem_cons_self)]
    exact ih fun p member => stand p (List.mem_cons_of_mem _ member)

theorem at?_foldl_setAt_of_object {other : List String} (outside : ∀ path ∈ paths, ¬path <+: other)
    {fields inner : Fields} (reached : (Value.object fields).at? other = some (.object inner)) :
    ∃ after, (Value.object (paths.foldl (fun fields path => setAt fields path (value path)) fields)).at? other =
        some (.object after) ∧ keysOf inner <+: keysOf after := by
  induction paths generalizing fields inner with
  | nil => exact ⟨inner, reached, List.prefix_refl _⟩
  | cons path rest ih =>
    obtain ⟨between, kept, first⟩ := at?_setAt_of_object (outside path List.mem_cons_self) reached (value path)
    obtain ⟨after, stands, second⟩ := ih (fun p member => outside p (List.mem_cons_of_mem _ member)) kept
    exact ⟨after, stands, first.trans second⟩

end SetInTurn

theorem valueAt?_withInvocation {path : List String} (member : path ∈ invocationPaths) (merged : Fields)
    (workspace root : Location) :
    valueAt? (withInvocation merged workspace root) path = some (invocationField workspace root path) := by
  rw [withInvocation_eq_foldl]
  exact valueAt?_foldl_setAt (by decide) (by decide) member merged

/-- The fields of the invocation are texts that come from the workspace and the root document
alone, and the way they give leads from the workspace to the root document. All paths that
neither lead to one of them nor go on from it have what they had; in the mappings on the way
the keys keep their order, and new ones follow; and putting the fields in once more changes
nothing. -/
theorem withInvocation_law {workspace root : Location}
    (anchored : workspace.isAbsolute = true ∧ workspace.same workspace.normalize = true ∧ workspace.BackslashFree)
    (rooted : root.isAbsolute = true ∧ root.same root.normalize = true ∧ root.BackslashFree) :
    ∃ rootDir configPath : String, (Location.absolutize ⟨configPath⟩ ⟨rootDir⟩).same root = true ∧
      ∀ merged, let after := withInvocation merged workspace root
        valueAt? after rootDirPath = some (.string rootDir) ∧
          valueAt? after configPathPath = some (.string configPath) ∧
            valueAt? after workspaceDirPath = some (.string rootDir) ∧
          valueAt? after shellDirPath = some (.string rootDir) ∧
          (∀ path, (∀ own ∈ invocationPaths, ¬path <+: own ∧ ¬own <+: path) →
            valueAt? after path = valueAt? merged path) ∧
          (∀ path fields, (∀ own ∈ invocationPaths, ¬own <+: path) →
            (Value.object merged).at? path = some (.object fields) →
            ∃ more, (Value.object after).at? path = some (.object more) ∧ keysOf fields <+: keysOf more) ∧
          withInvocation after workspace root = after := by
  obtain ⟨absoluteW, canonicalW, freeW⟩ := anchored
  obtain ⟨absoluteR, canonicalR, freeR⟩ := rooted
  have freeWay : '\\' ∉ (root.relativeTo workspace).text.toList := by
    intro member
    rcases Location.mem_of_mem_relativeTo member with own | dot | slash
    · exact freeR.not_mem own
    · cases dot
    · cases slash
  refine ⟨workspace.slashed, (root.relativeTo workspace).slashed, ?_, fun merged => ?_⟩
  · rw [Location.slashed_of_not_mem freeW.not_mem, Location.slashed_of_not_mem freeWay]
    exact Location.absolutize_relativeTo absoluteR canonicalR absoluteW canonicalW
  · have stand {path : List String} (member : path ∈ invocationPaths) :
        valueAt? (withInvocation merged workspace root) path = some (invocationField workspace root path) :=
      valueAt?_withInvocation member merged workspace root
    refine ⟨stand (by decide), stand (by decide), stand (by decide), stand (by decide), fun path apart => ?_,
      fun path fields outside reached => ?_, ?_⟩
    · rw [withInvocation_eq_foldl]
      exact valueAt?_foldl_setAt_of_apart apart merged
    · rw [withInvocation_eq_foldl]
      exact at?_foldl_setAt_of_object outside reached
    · rw [withInvocation_eq_foldl (withInvocation merged workspace root)]
      exact foldl_setAt_of_valueAt? fun path member => stand member

/-- Fields of an earlier place of the workspace, a list in the way of a field and a mapping in
its place. -/
def outdatedFields : Fields :=
  [("#shell-env", .array [.null]),
    ("#workspace", .object [("rootDir", .string "/old"), ("configPath", .object []), ("title", .string "t")])]

theorem withInvocation_law_outdated :
    let after := withInvocation outdatedFields ⟨"/home/ws"⟩ ⟨"/home/shared/root.yaml"⟩
    (∃ rootDir configPath : String,
        (Location.absolutize ⟨configPath⟩ ⟨rootDir⟩).same ⟨"/home/shared/root.yaml"⟩ = true ∧
        valueAt? after shellDirPath = some (.string rootDir) ∧
        valueAt? after configPathPath = some (.string configPath)) ∧
      valueAt? after ["#workspace", "title"] = some (.string "t") ∧
      withInvocation after ⟨"/home/ws"⟩ ⟨"/home/shared/root.yaml"⟩ = after := by
  have sound : ∀ l ∈ [Location.mk "/home/ws", ⟨"/home/shared/root.yaml"⟩],
      l.isAbsolute = true ∧ l.same l.normalize = true ∧ l.BackslashFree := by
    unfold Location.BackslashFree
    decide +kernel
  obtain ⟨rootDir, configPath, back, law⟩ := withInvocation_law (sound ⟨"/home/ws"⟩ (by simp))
    (sound ⟨"/home/shared/root.yaml"⟩ (by simp))
  obtain ⟨-, atConfig, -, atShell, apart, -, again⟩ := law outdatedFields
  exact ⟨⟨rootDir, configPath, back, atShell, atConfig⟩, apart ["#workspace", "title"] (by decide), again⟩

end LayeredConfig
