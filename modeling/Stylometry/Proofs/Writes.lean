-- Writes one after the other. What stands under a path stays as it is when nothing is written to
-- the place that it leads to, and to make a folder keeps all files.
import Stylometry.Proofs.Folders

namespace Stylometry.Files.Store

/-! ## What a path leads to -/

/-- The content of the file that the path leads to. -/
def content? (s : Store) (p : Path) : Option Bytes := (s.read p).toOption

theorem content?_eq_some {s : Store} {p : Path} {bs : Bytes} :
    s.content? p = some bs ↔ s.read p = .ok bs := by
  unfold content?
  cases s.read p <;> simp [Except.toOption]

theorem present_of_content {s : Store} {p : Path} {bs : Bytes} (h : s.content? p = some bs) :
    s.present p = true := by
  obtain ⟨place, hresolve, hfile⟩ := read_eq_ok.1 (content?_eq_some.1 h)
  unfold present
  rw [hresolve]
  simp [hfile]

theorem content?_of_not_present {s : Store} {p : Path} (h : s.present p = false) :
    s.content? p = none := by
  cases hcontent : s.content? p with
  | none => rfl
  | some bs =>
    rw [present_of_content hcontent] at h
    cases h

/-- Nothing stands where the path leads, or it leads nowhere. -/
theorem present_eq_false {s : Store} {p : Path} :
    s.present p = false ↔
      ∀ place, s.resolve p = .ok place → s.folderAt place = false ∧ s.fileAt? place = none := by
  unfold present
  cases s.resolve p with
  | error e => simp
  | ok place => simp

/-- The two paths do not lead to one place. -/
def Apart (s : Store) (p q : Path) : Prop :=
  ∀ place, s.resolve p = .ok place → s.resolve q ≠ .ok place

theorem Apart.symm {s : Store} {p q : Path} (h : s.Apart p q) : s.Apart q p :=
  fun place hq hp => h place hp hq

/-- Paths of files with different names in one folder are apart. -/
theorem apart_inside (s : Store) (folder : Path) {name name' : Text} (hname : IsPlain name)
    (hname' : IsPlain name') (hne : name ≠ name') :
    s.Apart (Path.inside folder name) (Path.inside folder name') := by
  intro place hplace hplace'
  obtain ⟨parent, rfl, hother⟩ := resolve_inside_cases hname hplace
  have heq := Except.ok.inj ((hother name' hname').symm.trans hplace')
  exact hne (List.cons.inj (List.append_cancel_left heq)).1.symm

/-- What stands in a folder stands in one that is there. -/
theorem present_of_present_inside {s : Store} {folder : Path} {name : Text} (hne : folder ≠ [])
    (hname : IsPlain name) (h : s.present (Path.inside folder name) = true) :
    s.present folder = true := by
  obtain ⟨place, hplace⟩ : ∃ place, s.resolve (Path.inside folder name) = .ok place := by
    unfold present at h
    split at h
    · exact ⟨_, ‹_›⟩
    · cases h
  obtain ⟨front, hfront, hpaths⟩ := Path.parts_inside folder
  obtain ⟨hstart, -, hparts⟩ := hpaths name hname
  have hfollow := (resolve_eq_ok.1 hplace).2
  rw [hstart, hparts, follow_append] at hfollow
  cases hparent : s.follow (Place.startOf folder) front with
  | error e =>
    rw [hparent] at hfollow
    cases hfollow
  | ok parent =>
    rw [hparent] at hfollow
    obtain ⟨hstands, -⟩ := follow_cons_eq_ok.1 hfollow
    refine Leads.present ⟨resolve_eq_ok.2 ⟨hne, ?_⟩, hstands⟩
    rcases hfront hne with hfront | hfront
    · rw [hfront, hparent]
    · rw [hfront, follow_append, hparent]
      exact follow_cons_eq_ok.2 ⟨hstands, rfl⟩

/-! ## Making folders -/

theorem files_makeFolders {s made : Store} {place : Place} {parts : List Text}
    (h : s.makeFolders place parts = .ok made) : made.files = s.files := by
  induction parts generalizing s place with
  | nil =>
    cases h
    rfl
  | cons part rest ih =>
    cases hstep : s.step place part with
    | error e =>
      rw [makeFolders, hstep] at h
      cases h
    | ok next =>
      obtain ⟨hplace, rfl⟩ := step_eq_ok.1 hstep
      rw [makeFolders_cons hplace] at h
      split at h
      · exact ih h
      · split at h
        · cases h
        · exact (ih h).trans rfl

/-- A folder that was made is there, so nothing is made when it is made again. -/
theorem createFolders_again {s made : Store} {folder : Path}
    (h : s.createFolders folder = .ok made) : made.createFolders folder = .ok made := by
  by_cases hfolder : folder = []
  · subst hfolder
    rfl
  · obtain ⟨place, hleads⟩ := exists_leads hfolder h
    exact hleads.createFolders

/-- To make a folder keeps the contents of all files. -/
theorem content?_createFolders {s made : Store} {folder p : Path} {bs : Bytes}
    (h : s.createFolders folder = .ok made) (hp : s.content? p = some bs) :
    made.content? p = some bs := by
  obtain ⟨hfiles, hkeep⟩ : made.files = s.files ∧
      ∀ place, s.folderAt place = true → made.folderAt place = true := by
    unfold createFolders at h
    split at h
    · cases h
      exact ⟨rfl, fun place hplace => hplace⟩
    · exact ⟨files_makeFolders h, (makeFolders_eq_ok h).1⟩
  obtain ⟨place, hresolve, hfile⟩ := read_eq_ok.1 (content?_eq_some.1 hp)
  refine content?_eq_some.2 (read_eq_ok.2 ⟨place, resolve_mono hkeep hresolve, ?_⟩)
  unfold fileAt? at hfile ⊢
  rw [hfiles, hfile]

/-! ## Writes -/

section
variable {s s' : Store} {p q : Path} {bs : Bytes}

/-- A write makes no folder and keeps every way that can be gone. -/
theorem resolve_write (h : s.write p bs = .ok s') (q : Path) (place : Place) :
    s'.resolve q = .ok place ↔ s.resolve q = .ok place := by
  obtain ⟨place', -, rfl⟩ := write_eq_ok.1 h
  exact resolve_putFile

theorem folders_write (h : s.write p bs = .ok s') : s'.folders = s.folders := by
  obtain ⟨place, -, rfl⟩ := write_eq_ok.1 h
  rfl

theorem content?_write_self (h : s.write p bs = .ok s') : s'.content? p = some bs :=
  content?_eq_some.2 (read_of_write h)

theorem fileAt?_write (h : s.write p bs = .ok s') (hapart : s.Apart p q) {place : Place}
    (hplace : s.resolve q = .ok place) : s'.fileAt? place = s.fileAt? place := by
  obtain ⟨place', hreceives, rfl⟩ := write_eq_ok.1 h
  have hne : place ≠ place' := by
    rintro rfl
    exact hapart _ hreceives.resolved hplace
  rw [fileAt?_putFile, if_neg hne]

theorem content?_write (h : s.write p bs = .ok s') (hapart : s.Apart p q) :
    s'.content? q = s.content? q := by
  refine Option.ext fun content => ?_
  rw [content?_eq_some, content?_eq_some, read_eq_ok, read_eq_ok]
  simp only [resolve_write h]
  constructor
  · rintro ⟨place, hplace, hfile⟩
    exact ⟨place, hplace, (fileAt?_write h hapart hplace).symm.trans hfile⟩
  · rintro ⟨place, hplace, hfile⟩
    exact ⟨place, hplace, (fileAt?_write h hapart hplace).trans hfile⟩

theorem present_write (h : s.write p bs = .ok s') (hapart : s.Apart p q)
    (hq : s.present q = false) : s'.present q = false := by
  rw [present_eq_false] at hq ⊢
  intro place hplace
  rw [resolve_write h] at hplace
  obtain ⟨hfolder, hfile⟩ := hq place hplace
  refine ⟨?_, (fileAt?_write h hapart hplace).trans hfile⟩
  rw [folderAt, folders_write h]
  exact hfolder

end

/-- The writes succeed one after the other. -/
inductive Writes : Store → List (Path × Bytes) → Store → Prop
  | nil {s : Store} : Writes s [] s
  | cons {s s' s'' : Store} {p : Path} {bs : Bytes} {rest : List (Path × Bytes)} :
      s.write p bs = .ok s' → Writes s' rest s'' → Writes s ((p, bs) :: rest) s''

namespace Writes

variable {s s' : Store} {ws : List (Path × Bytes)} {p q : Path} {bs : Bytes}

theorem resolve (h : Writes s ws s') (q : Path) (place : Place) :
    s'.resolve q = .ok place ↔ s.resolve q = .ok place := by
  induction h with
  | nil => rfl
  | cons hwrite _ ih => rw [ih, resolve_write hwrite]

theorem apart (h : Writes s ws s') : s'.Apart p q ↔ s.Apart p q := by
  simp only [Apart, ne_eq, h.resolve]

theorem folders (h : Writes s ws s') : s'.folders = s.folders := by
  induction h with
  | nil => rfl
  | cons hwrite _ ih => rw [ih, folders_write hwrite]

theorem content? (h : Writes s ws s') (hapart : ∀ w ∈ ws, s.Apart w.1 q) :
    s'.content? q = s.content? q := by
  induction h with
  | nil => rfl
  | cons hwrite hrest ih =>
    obtain ⟨hfirst, hothers⟩ := List.forall_mem_cons.1 hapart
    have hone := Writes.cons hwrite .nil
    rw [ih fun w hw => hone.apart.2 (hothers w hw), content?_write hwrite hfirst]

theorem present (h : Writes s ws s') (hapart : ∀ w ∈ ws, s.Apart w.1 q)
    (hq : s.present q = false) : s'.present q = false := by
  induction h with
  | nil => exact hq
  | cons hwrite hrest ih =>
    obtain ⟨hfirst, hothers⟩ := List.forall_mem_cons.1 hapart
    have hone := Writes.cons hwrite .nil
    exact ih (fun w hw => hone.apart.2 (hothers w hw)) (present_write hwrite hfirst hq)

/-- Files that are written to places of their own have what was written. -/
theorem content?_of_mem (h : Writes s ws s') (hapart : ws.Pairwise fun v w => s.Apart w.1 v.1)
    (hw : (p, bs) ∈ ws) : s'.content? p = some bs := by
  induction h with
  | nil => cases hw
  | cons hwrite hrest ih =>
    obtain ⟨hfirst, hothers⟩ := List.pairwise_cons.1 hapart
    have hone := Writes.cons hwrite .nil
    rcases List.mem_cons.1 hw with heq | hw
    · cases heq
      rw [hrest.content? fun w hw => hone.apart.2 (hfirst w hw), content?_write_self hwrite]
    · exact ih (hothers.imp fun hab => hone.apart.2 hab) hw

theorem createFolders (h : Writes s ws s') {folder : Path}
    (hfolder : s.createFolders folder = .ok s) : s'.createFolders folder = .ok s' := by
  by_cases hne : folder = []
  · subst hne
    rfl
  · obtain ⟨place, hleads⟩ := exists_leads hne hfolder
    have hstands : s'.folderAt place = true := by
      rw [folderAt, h.folders]
      exact hleads.stands
    exact Leads.createFolders ⟨(h.resolve folder place).2 hleads.resolved, hstands⟩

end Writes

end Stylometry.Files.Store
