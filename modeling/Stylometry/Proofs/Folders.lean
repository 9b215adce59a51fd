-- Folders of a store and the files in them. To make a folder keeps what stands, and a file
-- that is written into a folder is read back from it.
import Stylometry.Files.Store
import Stylometry.Proofs.Parts

namespace Stylometry

namespace Files

/-! ## Parts of paths -/

/-- A name that leads to something inside a folder. -/
def IsPlain (name : Text) : Prop :=
  name ≠ [] ∧ name ≠ ['.'] ∧ name ≠ "..".toList ∧ '/' ∉ name

instance (name : Text) : Decidable (IsPlain name) :=
  inferInstanceAs (Decidable (name ≠ [] ∧ name ≠ ['.'] ∧ name ≠ "..".toList ∧ '/' ∉ name))

theorem Place.enter_plain {name : Text} (h : IsPlain name) (p : Place) :
    p.enter name = p ++ [name] := by
  obtain ⟨h1, h2, h3, -⟩ := h
  unfold Place.enter
  rw [if_neg (by simp [h1, h2]), if_neg h3]

/-- The paths of the files in a folder go through the parts of the folder. A folder that is
written with a slash at its end has one part more, which is empty. -/
theorem Path.parts_inside (folder : Path) :
    ∃ front, (folder ≠ [] → Path.parts folder = front ∨ Path.parts folder = front ++ [[]]) ∧
      ∀ name, IsPlain name → Place.startOf (Path.inside folder name) = Place.startOf folder ∧
        Path.inside folder name ≠ [] ∧ Path.parts (Path.inside folder name) = front ++ [name] := by
  have hhead : ∀ {name : Text}, '/' ∉ name → ¬name.head? = some '/' :=
    fun hslash h => hslash (List.mem_of_head? h)
  by_cases hfolder : folder = []
  · subst hfolder
    refine ⟨[], fun h => absurd rfl h, ?_⟩
    rintro name ⟨hname, -, -, hslash⟩
    have hinside : Path.inside [] name = name := if_pos (by simp)
    rw [hinside]
    exact ⟨if_neg (hhead hslash), hname, Text.splitOn_of_not_mem hslash⟩
  have hjoined : ∀ {name : Text}, '/' ∉ name → Path.inside folder name =
      if folder.getLast? = some '/' then folder ++ name else folder ++ '/' :: name := by
    intro name hslash
    unfold Path.inside
    rw [if_neg (by simp [hhead hslash, hfolder])]
  by_cases hend : folder.getLast? = some '/'
  · obtain ⟨front, rfl⟩ := List.getLast?_eq_some_iff.1 hend
    refine ⟨Text.splitOn '/' front, fun _ => .inr ?_, ?_⟩
    · rw [Path.parts, Text.splitOn_append]
      rfl
    · rintro name ⟨-, -, -, hslash⟩
      rw [hjoined hslash, if_pos hend]
      refine ⟨?_, by simp, ?_⟩
      · cases front <;> rfl
      · rw [List.append_assoc, Path.parts, List.singleton_append, Text.splitOn_append,
          Text.splitOn_of_not_mem hslash]
  · refine ⟨Path.parts folder, fun _ => .inl rfl, ?_⟩
    rintro name ⟨-, -, -, hslash⟩
    rw [hjoined hslash, if_neg hend]
    refine ⟨?_, by simp, ?_⟩
    · cases folder with
      | nil => exact absurd rfl hfolder
      | cons c folder => rfl
    · rw [Path.parts, Text.splitOn_append, Text.splitOn_of_not_mem hslash]
      rfl

theorem Path.parts_eq_concat (p : Path) : p.parts.dropLast ++ [p.parts.getLastD []] = p.parts := by
  have hne : p.parts ≠ [] := Text.splitOn_ne_nil '/' p
  have hlast : p.parts.getLastD [] = p.parts.getLast hne := by
    rw [List.getLastD_eq_getLast?, List.getLast?_eq_some_getLast hne]
    rfl
  rw [hlast, List.dropLast_concat_getLast]

namespace Store

/-! ## Steps -/

theorem step_eq_ok {s : Store} {p q : Place} {part : Text} :
    s.step p part = .ok q ↔ s.folderAt p = true ∧ p.enter part = q := by
  unfold step
  constructor
  · intro h
    split at h
    · rename_i hp
      cases h
      exact ⟨hp, rfl⟩
    · split at h <;> cases h
  · rintro ⟨hp, rfl⟩
    rw [if_pos hp]

theorem follow_append (s : Store) (start : Place) (front back : List Text) :
    s.follow start (front ++ back) = (s.follow start front).bind fun p => s.follow p back :=
  List.foldlM_append

theorem follow_concat (s : Store) (start : Place) (front : List Text) (name : Text) :
    s.follow start (front ++ [name]) = (s.follow start front).bind fun p => s.step p name := by
  rw [follow_append]
  have hone : ∀ p, s.follow p [name] = s.step p name := by
    intro p
    unfold follow
    rw [List.foldlM_cons]
    cases s.step p name <;> rfl
  simp only [hone]

theorem follow_cons_eq_ok {s : Store} {p q : Place} {part : Text} {rest : List Text} :
    s.follow p (part :: rest) = .ok q ↔
      s.folderAt p = true ∧ s.follow (p.enter part) rest = .ok q := by
  have hcons : s.follow p (part :: rest) = (s.step p part).bind fun p => s.follow p rest := rfl
  rw [hcons]
  constructor
  · intro h
    cases hstep : s.step p part with
    | error e => rw [hstep] at h; cases h
    | ok r =>
      rw [hstep] at h
      obtain ⟨hp, rfl⟩ := step_eq_ok.1 hstep
      exact ⟨hp, h⟩
  · rintro ⟨hp, hrest⟩
    rw [step_eq_ok.2 ⟨hp, rfl⟩]
    exact hrest

theorem follow_mono {s s' : Store} (h : ∀ p, s.folderAt p = true → s'.folderAt p = true)
    {p q : Place} {parts : List Text} (hq : s.follow p parts = .ok q) :
    s'.follow p parts = .ok q := by
  induction parts generalizing p with
  | nil => exact hq
  | cons part rest ih =>
    obtain ⟨hp, hrest⟩ := follow_cons_eq_ok.1 hq
    exact follow_cons_eq_ok.2 ⟨h p hp, ih hrest⟩

theorem resolve_eq_ok {s : Store} {p : Path} {q : Place} :
    s.resolve p = .ok q ↔ p ≠ [] ∧ s.follow (Place.startOf p) p.parts = .ok q := by
  unfold resolve
  cases p with
  | nil => simp
  | cons c p => simp

theorem resolve_mono {s s' : Store} (h : ∀ p, s.folderAt p = true → s'.folderAt p = true)
    {p : Path} {q : Place} (hq : s.resolve p = .ok q) : s'.resolve p = .ok q := by
  obtain ⟨hp, hfollow⟩ := resolve_eq_ok.1 hq
  exact resolve_eq_ok.2 ⟨hp, follow_mono h hfollow⟩

/-! ## Making folders -/

theorem makeFolders_cons {s : Store} {place : Place} (h : s.folderAt place = true) (part : Text)
    (rest : List Text) :
    s.makeFolders place (part :: rest) =
      if s.folderAt (place.enter part) then s.makeFolders (place.enter part) rest
      else if (s.fileAt? (place.enter part)).isSome then
        .error (if rest.all List.isEmpty then .alreadyExists else .notADirectory)
      else makeFolders { s with folders := place.enter part :: s.folders } (place.enter part)
        rest := by
  rw [makeFolders, step_eq_ok.2 ⟨h, rfl⟩]
  rfl

/-- What was a folder stays one, and the way that was made can be gone. -/
theorem makeFolders_eq_ok {s made : Store} {place : Place} {parts : List Text}
    (h : s.makeFolders place parts = .ok made) :
    (∀ p, s.folderAt p = true → made.folderAt p = true) ∧
      ∃ q, made.follow place parts = .ok q ∧ (parts ≠ [] → made.folderAt q = true) := by
  induction parts generalizing s place with
  | nil =>
    cases h
    exact ⟨fun p hp => hp, place, rfl, fun h => absurd rfl h⟩
  | cons part rest ih =>
    cases hstep : s.step place part with
    | error e =>
      rw [makeFolders, hstep] at h
      cases h
    | ok next =>
      obtain ⟨hplace, rfl⟩ := step_eq_ok.1 hstep
      -- wherever the rest of the way is made, the next folder stands there already
      have hrest : ∀ s' : Store, s'.makeFolders (place.enter part) rest = .ok made →
          (∀ p, s.folderAt p = true → s'.folderAt p = true) →
          s'.folderAt (place.enter part) = true →
          (∀ p, s.folderAt p = true → made.folderAt p = true) ∧
            ∃ q, made.follow place (part :: rest) = .ok q ∧
              (part :: rest ≠ [] → made.folderAt q = true) := by
        intro s' hs' hmono hnext
        obtain ⟨hkeep, q, hq, hfolder⟩ := ih hs'
        refine ⟨fun p hp => hkeep p (hmono p hp), q,
          follow_cons_eq_ok.2 ⟨hkeep _ (hmono _ hplace), hq⟩, fun _ => ?_⟩
        cases rest with
        | nil =>
          cases hq
          exact hkeep _ hnext
        | cons => exact hfolder (by simp)
      rw [makeFolders_cons hplace] at h
      split at h
      · exact hrest s h (fun p hp => hp) ‹_›
      · split at h
        · cases h
        · refine hrest _ h ?_ (by simp [folderAt])
          intro p hp
          simp only [folderAt, Bool.or_eq_true, List.contains_eq_mem, decide_eq_true_eq] at hp ⊢
          exact hp.imp_right (List.mem_cons_of_mem _)

/-- Nothing is made on a way that can be gone already. -/
theorem makeFolders_of_follow {s : Store} {place q : Place} {parts : List Text}
    (h : s.follow place parts = .ok q) (hq : s.folderAt q = true) :
    s.makeFolders place parts = .ok s := by
  induction parts generalizing place with
  | nil => rfl
  | cons part rest ih =>
    obtain ⟨hplace, hrest⟩ := follow_cons_eq_ok.1 h
    have hnext : s.folderAt (place.enter part) = true := by
      cases rest with
      | nil =>
        cases hrest
        exact hq
      | cons => exact (follow_cons_eq_ok.1 hrest).1
    rw [makeFolders_cons hplace, if_pos hnext]
    exact ih hrest

/-! ## Writing and reading -/

/-- A write follows the path to a place, and puts the content there. -/
theorem write_eq (s : Store) (p : Path) (content : Bytes) :
    s.write p content = (s.resolve p).bind fun place =>
      if s.folderAt place || p.parts.getLastD [] = [] then .error .isADirectory
      else .ok (s.putFile place content) := by
  have hfollow : s.follow (Place.startOf p) p.parts =
      (s.follow (Place.startOf p) p.parts.dropLast).bind fun parent =>
        s.step parent (p.parts.getLastD []) := by
    rw [← follow_concat, Path.parts_eq_concat]
  unfold write resolve
  rw [hfollow]
  by_cases hp : p = []
  · subst hp
    rfl
  · have hempty : p.isEmpty = false := by simpa using hp
    rw [hempty]
    simp only [Bool.false_eq_true, if_false, bind, Except.bind]
    cases s.follow (Place.startOf p) p.parts.dropLast with
    | error e => rfl
    | ok parent =>
      dsimp only
      cases s.step parent (p.parts.getLastD []) with
      | error e => rfl
      | ok place =>
        dsimp only
        split <;> rfl

/-- A file can be written under the path, and it goes to the place. -/
structure Receives (s : Store) (p : Path) (place : Place) : Prop where
  resolved : s.resolve p = .ok place
  vacant : s.folderAt place = false
  named : p.parts.getLastD [] ≠ []

/-- Whether a write succeeds, and where it goes, does not depend on the content. -/
theorem write_eq_ok {s s' : Store} {p : Path} {content : Bytes} :
    s.write p content = .ok s' ↔ ∃ place, s.Receives p place ∧ s' = s.putFile place content := by
  rw [write_eq]
  constructor
  · intro h
    cases hresolve : s.resolve p with
    | error e =>
      rw [hresolve] at h
      cases h
    | ok place =>
      rw [hresolve, Except.bind] at h
      split at h
      · cases h
      · rename_i hfree
        cases h
        simp only [Bool.or_eq_true, decide_eq_true_eq, not_or, Bool.not_eq_true] at hfree
        exact ⟨place, ⟨hresolve, hfree.1, hfree.2⟩, rfl⟩
  · rintro ⟨place, h, rfl⟩
    rw [h.resolved, Except.bind, h.vacant, if_neg (by simpa using h.named)]

theorem read_eq_ok {s : Store} {p : Path} {content : Bytes} :
    s.read p = .ok content ↔ ∃ place, s.resolve p = .ok place ∧ s.fileAt? place = some content := by
  unfold read
  cases s.resolve p with
  | error e => simp [bind, Except.bind]
  | ok place =>
    simp only [bind, Except.bind, Except.ok.injEq, exists_eq_left']
    cases s.fileAt? place with
    | none => simp [throw, throwThe, MonadExceptOf.throw]
    | some c => simp [pure, Except.pure]

theorem fileAt?_putFile (s : Store) (p q : Place) (content : Bytes) :
    (s.putFile p content).fileAt? q = if q = p then some content else s.fileAt? q := by
  have hfilter : ∀ files : List (Place × Bytes), q ≠ p →
      (files.filter (·.1 ≠ p)).lookup q = files.lookup q := by
    intro files hne
    induction files with
    | nil => rfl
    | cons f files ih =>
      by_cases hf : f.1 = p
      · have hq : (q == f.1) = false := by simpa [hf] using hne
        rw [List.filter_cons_of_neg (by simp [hf]), ih, List.lookup_cons, hq]
      · rw [List.filter_cons_of_pos (by simp [hf]), List.lookup_cons, List.lookup_cons, ih]
  unfold fileAt? putFile
  by_cases h : q = p
  · rw [if_pos h, h, List.lookup_cons_self]
  · have hq : (q == p) = false := by simpa using h
    rw [if_neg h, List.lookup_cons, hq]
    exact hfilter s.files h

theorem resolve_putFile {s : Store} {p : Path} {place q : Place} {content : Bytes} :
    (s.putFile q content).resolve p = .ok place ↔ s.resolve p = .ok place := by
  have hput : ∀ r, s.folderAt r = true → (s.putFile q content).folderAt r = true := fun _ h => h
  have hback : ∀ r, (s.putFile q content).folderAt r = true → s.folderAt r = true := fun _ h => h
  exact ⟨resolve_mono hback, resolve_mono hput⟩

theorem receives_putFile {s : Store} {p : Path} {place q : Place} {content : Bytes} :
    (s.putFile q content).Receives p place ↔ s.Receives p place :=
  ⟨fun h => ⟨resolve_putFile.1 h.resolved, h.vacant, h.named⟩,
    fun h => ⟨resolve_putFile.2 h.resolved, h.vacant, h.named⟩⟩

/-- What is written into a file is read back from it. -/
theorem read_of_write {s s' : Store} {p : Path} {content : Bytes}
    (h : s.write p content = .ok s') : s'.read p = .ok content := by
  obtain ⟨place, hplace, rfl⟩ := write_eq_ok.1 h
  exact read_eq_ok.2 ⟨place, resolve_putFile.2 hplace.resolved, by
    rw [fileAt?_putFile, if_pos rfl]⟩

/-! ## Files in a folder -/

/-- The path leads to a folder that stands at the place. -/
structure Leads (s : Store) (folder : Path) (place : Place) : Prop where
  resolved : s.resolve folder = .ok place
  stands : s.folderAt place = true

section
variable {s : Store} {folder : Path} {place : Place} {name : Text}

theorem Leads.present (h : Leads s folder place) : s.present folder = true := by
  unfold Store.present
  rw [h.resolved]
  simp [h.stands]

theorem Leads.createFolders (h : Leads s folder place) : s.createFolders folder = .ok s := by
  obtain ⟨hne, hfollow⟩ := resolve_eq_ok.1 h.resolved
  unfold Store.createFolders
  rw [if_neg (by simp [hne]), makeFolders_of_follow hfollow h.stands]

/-- A folder that was made is there. -/
theorem exists_leads {made : Store} (hne : folder ≠ []) (h : s.createFolders folder = .ok made) :
    ∃ place, Leads made folder place := by
  unfold Store.createFolders at h
  rw [if_neg (by simp [hne])] at h
  obtain ⟨-, place, hfollow, hstands⟩ := makeFolders_eq_ok h
  exact ⟨place, resolve_eq_ok.2 ⟨hne, hfollow⟩, hstands (Text.splitOn_ne_nil '/' folder)⟩

theorem Leads.follow_front (h : Leads s folder place) (hname : IsPlain name) :
    Path.inside folder name ≠ [] ∧ ∃ front, Path.parts (Path.inside folder name) = front ++ [name] ∧
      s.follow (Place.startOf (Path.inside folder name)) front = .ok place := by
  obtain ⟨hne, hfollow⟩ := resolve_eq_ok.1 h.resolved
  obtain ⟨front, hfront, hpaths⟩ := Path.parts_inside folder
  obtain ⟨hstart, hinside, hparts⟩ := hpaths name hname
  refine ⟨hinside, front, hparts, ?_⟩
  rw [hstart]
  rcases hfront hne with hfront | hfront
  · rw [← hfront]
    exact hfollow
  · rw [hfront, follow_append] at hfollow
    cases hq : s.follow (Place.startOf folder) front with
    | error e => rw [hq] at hfollow; cases hfollow
    | ok q =>
      rw [hq] at hfollow
      obtain ⟨-, hplace⟩ := follow_cons_eq_ok.1 hfollow
      cases hplace
      rfl

theorem Leads.resolve_inside (h : Leads s folder place) (hname : IsPlain name) :
    s.resolve (Path.inside folder name) = .ok (place ++ [name]) := by
  obtain ⟨hne, front, hparts, hfront⟩ := h.follow_front hname
  refine resolve_eq_ok.2 ⟨hne, ?_⟩
  rw [hparts, follow_append, hfront]
  exact follow_cons_eq_ok.2 ⟨h.stands, by rw [Place.enter_plain hname]; rfl⟩

/-- Paths into one folder lead to places that differ in the last name only. -/
theorem resolve_inside_cases (hname : IsPlain name)
    (h : s.resolve (Path.inside folder name) = .ok place) :
    ∃ parent, place = parent ++ [name] ∧ ∀ other, IsPlain other →
      s.resolve (Path.inside folder other) = .ok (parent ++ [other]) := by
  obtain ⟨front, -, hpaths⟩ := Path.parts_inside folder
  obtain ⟨hstart, -, hparts⟩ := hpaths name hname
  obtain ⟨-, hfollow⟩ := resolve_eq_ok.1 h
  rw [hstart, hparts, follow_concat] at hfollow
  cases hparent : s.follow (Place.startOf folder) front with
  | error e =>
    rw [hparent] at hfollow
    cases hfollow
  | ok parent =>
    rw [hparent] at hfollow
    obtain ⟨hstands, henter⟩ := step_eq_ok.1 hfollow
    rw [Place.enter_plain hname] at henter
    refine ⟨parent, henter.symm, ?_⟩
    intro other hother
    obtain ⟨hstart', hne, hparts'⟩ := hpaths other hother
    refine resolve_eq_ok.2 ⟨hne, ?_⟩
    rw [hstart', hparts', follow_concat, hparent]
    exact step_eq_ok.2 ⟨hstands, Place.enter_plain hother parent⟩

/-- A file can be written into a folder where no folder has its name. -/
theorem Leads.receives_inside (h : Leads s folder place) (hname : IsPlain name)
    (hvacant : s.folderAt (place ++ [name]) = false) :
    s.Receives (Path.inside folder name) (place ++ [name]) := by
  obtain ⟨-, front, hparts, -⟩ := h.follow_front hname
  refine ⟨h.resolve_inside hname, hvacant, ?_⟩
  rw [hparts, List.getLastD_concat]
  exact hname.1

theorem Leads.putFile (h : Leads s folder place) (p : Place) (content : Bytes) :
    Leads (s.putFile p content) folder place := by
  have hkeep : ∀ q, s.folderAt q = true → (s.putFile p content).folderAt q = true :=
    fun q hq => hq
  exact ⟨resolve_mono hkeep h.resolved, h.stands⟩

end

end Store
end Files
end Stylometry
