import LayeredConfig.Proofs.FileTree.Canonical
import LayeredConfig.Proofs.FileTree.Growth
import LayeredConfig.Proofs.Location.Descent
import LayeredConfig.Proofs.Outcome
import LayeredConfig.Proofs.Value.Equality

namespace LayeredConfig

/-- A name that an entry of a directory can have. -/
structure EntryName (name : String) : Prop where
  isName : Location.IsName name
  textual : '\x00' ∉ name.toList
  short : name.utf8ByteSize ≤ 255

instance (name : String) : Decidable (EntryName name) :=
  decidable_of_iff (('/' ∉ name.toList ∧ Location.idle name.toList = false ∧ name.toList ≠ ['.', '.']) ∧
      '\x00' ∉ name.toList ∧ name.utf8ByteSize ≤ 255)
    ⟨fun ⟨own, textual, short⟩ => ⟨own, textual, short⟩, fun own => ⟨own.isName, own.textual, own.short⟩⟩

/-- A name behind a place stands behind a slash, and the slash may be that of the place. -/
theorem Location.join_form {base : Location} {text : String} (relative : text.toList.head? ≠ some '/')
    (filled : base.text ≠ "") (free : '/' ∉ text.toList) : ∃ between front gap,
      (base.join text).text = base.text ++ between ++ text ∧ (between = "" ∨ between = "/") ∧
      (∀ part ∈ gap, idle part = true) ∧ pieces '/' base.text.toList = front ++ gap ∧
      pieces '/' (base.join text).text.toList = front ++ [text.toList] := by
  have own := pieces_of_not_mem free
  unfold join
  split
  · next rest same => simp [same] at relative
  · split
    · next empty => exact absurd (String.toList_eq_nil_iff.mp (List.getLast?_eq_none_iff.mp empty)) filled
    · next slash =>
      obtain ⟨front, written⟩ := List.getLast?_eq_some_iff.mp slash
      refine ⟨"", pieces '/' front, [[]], by simp, Or.inl rfl, by simp [idle], ?_, ?_⟩
      · rw [written, pieces_append_sep]
        rfl
      · rw [String.toList_append, written, List.append_assoc, List.singleton_append, pieces_append_sep, own]
    · next last _ _ =>
      refine ⟨"/", pieces '/' base.text.toList, [], rfl, Or.inr rfl, by simp, by simp, ?_⟩
      have joined : (base.text ++ "/" ++ text).toList = base.text.toList ++ '/' :: text.toList := by simp
      rw [joined, pieces_append_sep, own]

theorem Location.mem_of_mem_unslashed {l : Location} {c : Char} (member : c ∈ l.unslashed.text.toList) :
    c ∈ l.text.toList ∨ c = '/' := by
  unfold unslashed at member
  split at member
  · split at member
    · exact Or.inl member
    · exact Or.inr (by simpa using member)
  · have kept : c ∈ l.text.toList.reverse.dropWhile (· = '/') := by simpa using member
    exact Or.inl (List.mem_reverse.mp ((List.dropWhile_sublist _).subset kept))

/-- Of the entries whose keys are kept, each is found as before. -/
theorem lookup_filter_keys {κ α : Type} [BEq κ] [LawfulBEq κ] (keep : κ → Bool)
    (entries : List (κ × α)) (key : κ) :
    (entries.filter fun e => keep e.1).lookup key = if keep key = true then entries.lookup key else none := by
  induction entries with
  | nil => simp
  | cons entry rest ih =>
    obtain ⟨name, first⟩ := entry
    by_cases same : key = name
    · subst same
      by_cases kept : keep key = true <;> simp [kept, ih]
    · have apart : (key == name) = false := by simpa using same
      by_cases kept : keep name = true <;> simp [kept, ih, List.lookup_cons, apart]

namespace FileTree

variable {t u : FileTree} {l : Location} {names : List String}

/-- Each entry is listed once, under names that entries can have, in a directory. -/
structure Sound (t : FileTree) : Prop where
  distinct : (keysOf t.entries).Nodup
  named : ∀ names ∈ t.here :: keysOf t.entries, ∀ name ∈ names, EntryName name
  within : ∀ names ∈ keysOf t.entries, names ≠ [] ∧ t.entry? names.dropLast = some .directory

instance (t : FileTree) : Decidable t.Sound :=
  decidable_of_iff ((keysOf t.entries).Nodup ∧
    (∀ names ∈ t.here :: keysOf t.entries, ∀ name ∈ names, EntryName name) ∧
      ∀ names ∈ keysOf t.entries, names ≠ [] ∧ t.entry? names.dropLast = some .directory)
    ⟨fun ⟨distinct, named, within⟩ => ⟨distinct, named, within⟩,
      fun sound => ⟨sound.distinct, sound.named, sound.within⟩⟩

theorem mem_keysOf_of_found {entry : Entry} (named : names ≠ []) (found : t.entry? names = some entry) :
    names ∈ keysOf t.entries := by
  cases names with
  | nil => exact absurd rfl named
  | cons first rest => exact mem_keysOf_iff.mpr ⟨entry, found⟩

theorem Sound.entry?_iff (sound : t.Sound) {entry : Entry} :
    (names, entry) ∈ t.entries ↔ names ≠ [] ∧ t.entry? names = some entry := by
  constructor
  · intro member
    have found := lookup_of_mem sound.distinct member
    obtain ⟨named, -⟩ := sound.within names (List.mem_map_of_mem member)
    obtain ⟨first, rest, rfl⟩ := List.exists_cons_of_ne_nil named
    exact ⟨named, found⟩
  · rintro ⟨named, found⟩
    obtain ⟨first, rest, rfl⟩ := List.exists_cons_of_ne_nil named
    exact mem_of_lookup found

section Walk

theorem walk_append_eq_ok {dir : List String} {front back : List (List Char)} :
    t.walk dir (front ++ back) = .ok names ↔ ∃ middle, t.walk dir front = .ok middle ∧
      t.walk middle back = .ok names := by
  induction front generalizing dir with
  | nil => simp [walk]
  | cons part rest ih =>
    rw [List.cons_append, walk, walk]
    cases t.entry? dir with
    | none => simp
    | some entry =>
      cases entry with
      | file body => simp
      | directory =>
        dsimp only
        split
        · exact ih
        · split
          · exact ih
          · split
            · simp
            · exact ih

/-- A name leads from a directory to what may have it there. -/
theorem walk_name_eq_ok {above : List String} {name : String} (own : EntryName name) :
    t.walk above [name.toList] = .ok names ↔ t.entry? above = some .directory ∧ names = above ++ [name] := by
  have short : ¬255 < name.utf8ByteSize := Nat.not_lt.mpr own.short
  rw [walk]
  cases t.entry? above with
  | none => simp
  | some entry =>
    cases entry with
    | file body => simp
    | directory => simp [own.isName.2.1, own.isName.2.2, short, walk, eq_comm]

theorem walk_idle_iff {middle above : List String} {parts : List (List Char)}
    (idle : ∀ part ∈ parts, Location.idle part = true) :
    t.walk middle parts = .ok above ∧ t.entry? above = some .directory ↔
      middle = above ∧ t.entry? above = some .directory := by
  induction parts with
  | nil => simp [walk]
  | cons part rest ih =>
    have later := ih fun other member => idle other (List.mem_cons_of_mem _ member)
    rw [walk]
    simp only [idle part List.mem_cons_self, if_true]
    cases found : t.entry? middle with
    | none =>
      simp only [reduceCtorEq, false_and, false_iff]
      rintro ⟨rfl, directory⟩
      simp [found] at directory
    | some entry =>
      cases entry with
      | file body =>
        simp only [reduceCtorEq, false_and, false_iff]
        rintro ⟨rfl, directory⟩
        simp [found] at directory
      | directory => exact later

theorem locate_eq_ok_iff :
    t.locate l = .ok names ↔ checkPlace l = .ok () ∧
      t.walk (if l.isAbsolute then [] else t.here) (pieces '/' l.text.toList) = .ok names := by
  rw [locate, bind_eq_ok]
  constructor
  · rintro ⟨⟨⟩, checked, followed⟩
    exact ⟨checked, followed⟩
  · rintro ⟨checked, followed⟩
    exact ⟨(), checked, followed⟩

theorem zero_mem_join_iff {name : String} (filled : l.text ≠ "") (own : EntryName name) :
    '\x00' ∈ (l.join name).text.toList ↔ '\x00' ∈ l.text.toList := by
  have relative : name.toList.head? ≠ some '/' := fun slash => own.isName.1 (List.mem_of_head? slash)
  obtain ⟨between, _, _, text, clean, _⟩ := Location.join_form relative filled own.isName.1
  have last := own.textual
  rcases clean with rfl | rfl <;> simp [text, last]

/-- What a name leads to behind a place is where the place leads, and the name in that directory. -/
theorem locate_join_eq_ok {name : String} (filled : l.text ≠ "") (own : EntryName name) :
    t.locate (l.join name) = .ok names ↔ (l.join name).text.utf8ByteSize ≤ longestPlace ∧
      ∃ above, t.locate l = .ok above ∧ t.entry? above = some .directory ∧ names = above ++ [name] := by
  have relative : name.toList.head? ≠ some '/' := fun slash => own.isName.1 (List.mem_of_head? slash)
  obtain ⟨between, front, gap, text, -, idle, cut, joined⟩ := Location.join_form relative filled own.isName.1
  have letters : l.text.toList ≠ [] := fun none_ => filled (String.toList_eq_nil_iff.mp none_)
  have absolute : (l.join name).isAbsolute = l.isAbsolute := by
    simp only [Location.isAbsolute, text, String.toList_append, List.append_assoc,
      List.head?_append_of_ne_nil _ letters]
  have checked : checkPlace (l.join name) = .ok () ↔
      (l.join name).text.utf8ByteSize ≤ longestPlace ∧ checkPlace l = .ok () := by
    have less : l.text.utf8ByteSize ≤ (l.join name).text.utf8ByteSize := by
      rw [text, String.utf8ByteSize_append, String.utf8ByteSize_append]
      omega
    have named : (l.join name).text ≠ "" := by simp [text, filled]
    rw [checkPlace_eq_ok_iff, checkPlace_eq_ok_iff, zero_mem_join_iff filled own]
    constructor
    · rintro ⟨-, free, short⟩
      exact ⟨short, filled, free, Nat.le_trans less short⟩
    · rintro ⟨short, -, free, -⟩
      exact ⟨named, free, short⟩
  rw [locate_eq_ok_iff, checked, absolute, joined, walk_append_eq_ok]
  simp only [locate_eq_ok_iff, walk_name_eq_ok own, cut, walk_append_eq_ok]
  constructor
  · rintro ⟨⟨short, sound⟩, above, led, directory, last⟩
    have rest := (walk_idle_iff idle).mpr ⟨rfl, directory⟩
    exact ⟨short, above, ⟨sound, above, led, rest.1⟩, directory, last⟩
  · rintro ⟨short, above, ⟨sound, middle, led, rest⟩, directory, last⟩
    obtain ⟨rfl, -⟩ := (walk_idle_iff idle).mp ⟨rest, directory⟩
    exact ⟨⟨short, sound⟩, middle, led, directory, last⟩

end Walk

section Kept

/-- A new entry in a directory, or a file in the place of a file. -/
theorem Sound.put (sound : t.Sound) (named : names ≠ []) (own : ∀ name ∈ names, EntryName name)
    (above : t.entry? names.dropLast = some .directory) (old : t.entry? names ≠ some .directory) (entry : Entry) :
    Sound { t with entries := LayeredConfig.put names entry t.entries } := by
  have known {other : List String} (member : other ∈ keysOf (LayeredConfig.put names entry t.entries)) :
      other = names ∨ other ∈ keysOf t.entries := by
    rw [keysOf_put] at member
    split at member
    · exact Or.inr member
    · exact (List.mem_append.mp member).symm.imp List.mem_singleton.mp id
  have directory {other : List String} (found : t.entry? other = some .directory) :
      FileTree.entry? { t with entries := LayeredConfig.put names entry t.entries } other = some .directory := by
    have apart : other ≠ names := by
      rintro rfl
      exact old found
    rw [entry?_put_of_ne t apart, found]
  refine ⟨nodup_keysOf_put sound.distinct names entry, ?_, ?_⟩
  · intro other member
    rcases List.mem_cons.mp member with rfl | inside
    · exact sound.named _ List.mem_cons_self
    · rcases known inside with rfl | before
      · exact own
      · exact sound.named other (List.mem_cons_of_mem _ before)
  · intro other member
    rcases known member with rfl | before
    · exact ⟨named, directory above⟩
    · exact ⟨(sound.within other before).1, directory (sound.within other before).2⟩

/-- A way of sound parts leads to sound names. -/
theorem entryName_of_walk {dir : List String} {parts : List (List Char)} (start : ∀ name ∈ dir, EntryName name)
    (parts_ : ∀ part ∈ parts, '/' ∉ part ∧ '\x00' ∉ part) (walked : t.walk dir parts = .ok names) :
    ∀ name ∈ names, EntryName name := by
  induction parts generalizing dir with
  | nil =>
    cases walked
    exact start
  | cons part rest ih =>
    obtain ⟨⟨free, textual⟩, others⟩ := List.forall_mem_cons.mp parts_
    rw [walk] at walked
    split at walked
    · cases walked
    · cases walked
    · split at walked
      · exact ih start others walked
      · next busy =>
        split at walked
        · exact ih (fun name member => start name (List.dropLast_subset _ member)) others walked
        · next apart =>
          dsimp only at walked
          split at walked
          · cases walked
          · next short =>
            have own : EntryName (String.ofList part) :=
              ⟨⟨by simpa using free, by simpa using busy, by simpa using apart⟩, by simpa using textual, by omega⟩
            refine ih (fun name member => ?_) others walked
            rcases List.mem_append.mp member with before | last
            · exact start name before
            · exact List.mem_singleton.mp last ▸ own

theorem Sound.follow (sound : t.Sound) (textual : '\x00' ∉ l.text.toList) (followed : t.follow l = .ok names) :
    ∀ name ∈ names, EntryName name := by
  have start : ∀ name ∈ if l.isAbsolute then [] else t.here, EntryName name := by
    split
    · simp
    · exact sound.named _ List.mem_cons_self
  refine entryName_of_walk start (fun part member => ⟨not_mem_of_mem_pieces member, fun zero => ?_⟩) followed
  exact textual (mem_of_mem_pieces member zero)

theorem Sound.locate (sound : t.Sound) (located : t.locate l = .ok names) : ∀ name ∈ names, EntryName name := by
  obtain ⟨checked, walked⟩ := locate_eq_ok_iff.mp located
  exact sound.follow (checkPlace_eq_ok_iff.mp checked).2.1 walked

theorem Sound.write (sound : t.Sound) {body : Body} (wrote : t.write l body = .ok u) : u.Sound := by
  obtain ⟨names, located, named, old, rfl⟩ := write_eq_ok wrote
  refine sound.put named (sound.locate located) ?_ old _
  cases found : t.entry? names with
  | some entry => exact (sound.within names (mem_keysOf_of_found named found)).2
  | none =>
    simp only [FileTree.write, located, bind, Except.bind, found] at wrote
    split at wrote
    · assumption
    · cases wrote
    · cases wrote

/-- All that making a directory can do: it is new, and in a directory. -/
theorem makeDir_eq_ok (made : t.makeDir l = .ok u) :
    ∃ names, checkPlace l = .ok () ∧ t.follow l.unslashed = .ok names ∧ names ≠ [] ∧ t.entry? names = none ∧
      t.entry? names.dropLast = some .directory ∧
        u = { t with entries := LayeredConfig.put names .directory t.entries } := by
  obtain ⟨⟨⟩, checked, made⟩ := bind_eq_ok.mp made
  obtain ⟨names, followed, made⟩ := bind_eq_ok.mp made
  cases found : t.entry? names with
  | some entry => simp [found] at made
  | none =>
    simp only [found] at made
    have named : names ≠ [] := by
      rintro rfl
      cases found
    refine ⟨names, checked, followed, named, found, ?_⟩
    split at made
    · next directory => exact ⟨directory, (Except.ok.inj made).symm⟩
    · cases made
    · cases made

theorem Sound.makeDir (sound : t.Sound) (made : t.makeDir l = .ok u) : u.Sound := by
  obtain ⟨names, checked, followed, named, fresh, above, rfl⟩ := makeDir_eq_ok made
  refine sound.put named (sound.follow (fun zero => ?_) followed) above (by simp [fresh]) _
  rcases Location.mem_of_mem_unslashed zero with inside | slash
  · exact (checkPlace_eq_ok_iff.mp checked).2.1 inside
  · cases slash

/-- What each directory made keeps is kept when a directory is made with those above it, also where that fails
on the way. -/
theorem keeps_makeDirsWithin {Keep : FileTree → Prop} (keep : ∀ {t u l}, Keep t → t.makeDir l = .ok u → Keep u)
    (fuel : Nat) {t : FileTree} (start : Keep t) (l : Location) : Keep (t.makeDirsWithin fuel l).1 := by
  induction fuel generalizing t l with
  | zero => exact start
  | succ fuel ih =>
    unfold makeDirsWithin
    dsimp only
    split
    · exact start
    · split
      · split
        · exact start
        · next above _ =>
          have higher := ih start above
          split
          · next x made =>
            rw [made] at higher
            split
            · next last => exact keep higher last
            · exact higher
          · exact higher
      · split
        · next last => exact keep start last
        · exact start

theorem Sound.makeDirs (sound : t.Sound) (l : Location) : (t.makeDirs l).1.Sound :=
  keeps_makeDirsWithin Sound.makeDir _ sound l

/-- The tree without some of its files. -/
def pruned (t : FileTree) (gone : List (List String)) : FileTree :=
  { t with entries := t.entries.filter fun e => e.1 ∉ gone }

theorem entry?_pruned {gone : List (List String)} (root : [] ∉ gone) (names : List String) :
    FileTree.entry? (t.pruned gone) names = if names ∈ gone then none else t.entry? names := by
  cases names with
  | nil => simp [root, FileTree.entry?]
  | cons first rest =>
    have kept := lookup_filter_keys (fun key => decide (key ∉ gone)) t.entries (first :: rest)
    by_cases member : first :: rest ∈ gone <;> simpa [FileTree.entry?, FileTree.pruned, member] using kept

/-- These names are all of files. -/
def AreFiles (t : FileTree) (gone : List (List String)) : Prop :=
  ∀ names ∈ gone, ∃ body, t.entry? names = some (.file body)

theorem AreFiles.root {gone : List (List String)} (files : t.AreFiles gone) : [] ∉ gone := by
  intro member
  obtain ⟨body, found⟩ := files [] member
  cases found

/-- Taking files away leaves the directories. -/
theorem entry?_pruned_directory {gone : List (List String)} (files : t.AreFiles gone) (names : List String) :
    FileTree.entry? (t.pruned gone) names = some .directory ↔ t.entry? names = some .directory := by
  rw [entry?_pruned files.root]
  split
  · next member =>
    obtain ⟨body, found⟩ := files names member
    simp [found]
  · rfl

theorem Sound.pruned (sound : t.Sound) {gone : List (List String)} (files : t.AreFiles gone) :
    (t.pruned gone).Sound := by
  have fewer : (keysOf (t.pruned gone).entries).Sublist (keysOf t.entries) := List.filter_sublist.map Prod.fst
  refine ⟨sound.distinct.sublist fewer, fun names member => ?_, fun names member => ?_⟩
  · exact sound.named names (List.mem_cons.mpr ((List.mem_cons.mp member).imp id (fewer.subset ·)))
  · obtain ⟨named, above⟩ := sound.within names (fewer.subset member)
    exact ⟨named, (entry?_pruned_directory files _).mpr above⟩

theorem locate_pruned {gone : List (List String)} (files : t.AreFiles gone) :
    (t.pruned gone).locate l = .ok names ↔ t.locate l = .ok names :=
  locate_eq_ok_of_dirs (entry?_pruned_directory files) rfl l names

theorem pruned_nil (t : FileTree) : t.pruned [] = t := by
  simp [pruned]

theorem pruned_pruned (t : FileTree) (first second : List (List String)) :
    (t.pruned first).pruned second = t.pruned (first ++ second) := by
  simp [pruned, List.filter_filter, Bool.and_comm]

/-- Deleting takes a file away. -/
theorem delete_eq_ok : t.delete l = .ok u ↔
    ∃ names body, t.locate l = .ok names ∧ t.entry? names = some (.file body) ∧ u = t.pruned [names] := by
  have removed (names : List String) : t.remove names = t.pruned [names] := by
    simp [remove, FileTree.pruned, without]
  unfold delete
  rw [bind_eq_ok]
  constructor
  · rintro ⟨names, located, deleted⟩
    split at deleted
    · cases deleted
    · cases deleted
    · next body found =>
      cases deleted
      exact ⟨names, body, located, found, removed names⟩
  · rintro ⟨names, body, located, found, rfl⟩
    exact ⟨names, located, by rw [found, ← removed]⟩

end Kept

section Files

variable {above : List String} {name : String}

theorem eq_of_fileIn {e : List String × Entry}
    (found : (match e.2 with
      | .file _ => if e.1 ≠ [] ∧ e.1.dropLast = above then e.1.getLast? else none
      | .directory => none) = some name) : (∃ body, e.2 = .file body) ∧ e.1 = above ++ [name] := by
  obtain ⟨names, entry⟩ := e
  cases entry with
  | directory => cases found
  | file body =>
    dsimp only at found
    split at found
    · next own => exact ⟨⟨body, rfl⟩, by rw [← own.2, List.dropLast_append_getLast? name found]⟩
    · cases found

/-- The names of the files in a directory are those of its entries that are files. -/
theorem Sound.mem_filesIn (sound : t.Sound) :
    name ∈ t.filesIn above ↔ ∃ body, t.entry? (above ++ [name]) = some (.file body) := by
  rw [filesIn, List.mem_filterMap]
  constructor
  · rintro ⟨⟨names, entry⟩, member, own⟩
    obtain ⟨⟨body, rfl⟩, rfl⟩ := eq_of_fileIn own
    exact ⟨body, (sound.entry?_iff.mp member).2⟩
  · rintro ⟨body, found⟩
    exact ⟨_, sound.entry?_iff.mpr ⟨by simp, found⟩, by simp⟩

theorem Sound.nodup_filesIn (sound : t.Sound) (above : List String) : (t.filesIn above).Nodup := by
  rw [filesIn, List.Nodup, List.pairwise_filterMap]
  have apart := List.pairwise_map.mp sound.distinct
  refine apart.imp fun differ first own second other same => ?_
  subst same
  exact differ ((eq_of_fileIn own).2.trans (eq_of_fileIn other).2.symm)

end Files

end FileTree

end LayeredConfig
