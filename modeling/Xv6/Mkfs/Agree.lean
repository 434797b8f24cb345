import Xv6.Fs.Lookup
import Xv6.Mkfs.Image

/-!
# The kernel reads the image that mkfs makes

`iappend` and `readi` are two implementations of one format, and so are the entries mkfs
writes into the root directory and what `dirlookup` makes of them. Whatever the input files
are, the kernel finds them under their names, with their bytes.
-/

namespace Xv6.Mkfs

open Fs Interleave Log

/-! ## The root directory -/

/-- The name under which a file is stored. -/
def stored (f : Input) : List UInt8 := skipUnderscore (shortname f.name)

/-- The names in the root directory. -/
def names (files : List Input) : List (List UInt8) := [dot] :: [dot, dot] :: files.map stored

/-- The inode numbers in the root directory. -/
def numbers (files : List Input) : List Nat :=
  ROOTINO :: ROOTINO :: List.range' (ROOTINO + 1) files.length

def rootEntries (files : List Input) : List (List UInt8) :=
  (numbers files).zipWith (fun inum name => putDirent ⟨inum, strncpy DIRSIZ name⟩) (names files)

theorem stored_suffix (f : Input) : stored f <:+ shortname f.name := by
  rw [stored, skipUnderscore]
  split
  · exact List.tail_suffix _
  · exact List.suffix_rfl

theorem shortname_suffix (name : List UInt8) : shortname name <:+ name := by
  rw [shortname]
  split
  · exact List.drop_suffix 5 name
  · exact List.suffix_rfl

theorem length_names (files : List Input) : (names files).length = files.length + 2 := by
  simp [names]

theorem length_numbers (files : List Input) : (numbers files).length = files.length + 2 := by
  simp [numbers]

theorem addTo_root (c : Nat → List UInt8) {inum : Nat} (h : ROOTINO < inum) (fs : List Input) :
    addTo c inum fs ROOTINO = c ROOTINO ++ ((List.range' inum fs.length).zipWith
      (fun inum name => putDirent ⟨inum, strncpy DIRSIZ name⟩) (fs.map stored)).flatten := by
  induction fs generalizing c inum with
  | nil => simp [addTo]
  | cons f fs ih =>
    rw [addTo, ih _ (by omega), Function.update_of_ne (by omega), Function.update_self,
      List.append_assoc]
    rfl

theorem contents_root (files : List Input) :
    contents files ROOTINO = (rootEntries files).flatten := by
  rw [contents, addTo_root _ (by decide), Function.update_self, dots, List.append_assoc]
  rfl

theorem addTo_other (c : Nat → List UInt8) {inum j : Nat} (hj : j ≠ ROOTINO) (h : j < inum)
    (fs : List Input) : addTo c inum fs j = c j := by
  induction fs generalizing c inum with
  | nil => rfl
  | cons f fs ih =>
    rw [addTo, ih _ (by omega), Function.update_of_ne (by omega), Function.update_of_ne hj]

theorem addTo_file (c : Nat → List UInt8) {inum j : Nat} (h : ROOTINO < inum) {fs : List Input}
    {f : Input} (hf : fs[j]? = some f) : addTo c inum fs (inum + j) = f.bytes := by
  induction fs generalizing c inum j with
  | nil => cases hf
  | cons g fs ih =>
    rw [addTo]
    cases j with
    | zero =>
      obtain rfl : g = f := Option.some.inj hf
      have ne : inum ≠ ROOTINO := by omega
      rw [Nat.add_zero]
      exact (addTo_other _ ne (Nat.lt_succ_self inum) fs).trans (Function.update_self ..)
    | succ j =>
      rw [← Nat.add_assoc, Nat.add_right_comm]
      exact ih _ (by omega) hf

/-- Runs of equal length put together and cut again. -/
theorem flatten_slice {α : Type} {n k : Nat} {l : List (List α)} {x : List α}
    (h : ∀ y ∈ l, y.length = n) (hx : l[k]? = some x) : (l.flatten.drop (n * k)).take n = x := by
  induction l generalizing k with
  | nil => cases hx
  | cons y l ih =>
    have len := h y List.mem_cons_self
    rw [List.flatten_cons]
    cases k with
    | zero =>
      obtain rfl : y = x := Option.some.inj hx
      rw [Nat.mul_zero, List.drop_zero, List.take_left' len]
    | succ k =>
      rw [Nat.mul_succ, Nat.add_comm, ← List.drop_drop, List.drop_left' len]
      exact ih (fun z hz => h z (List.mem_cons_of_mem y hz)) hx

theorem rootEntries_get {files : List Input} {k : Nat} (hk : k < files.length + 2) :
    ∃ inum name, (numbers files)[k]? = some inum ∧ (names files)[k]? = some name ∧
      (rootEntries files)[k]? = some (putDirent ⟨inum, strncpy DIRSIZ name⟩) := by
  have h₁ : k < (numbers files).length := by rwa [length_numbers]
  have h₂ : k < (names files).length := by rwa [length_names]
  refine ⟨_, _, List.getElem?_eq_getElem h₁, List.getElem?_eq_getElem h₂, ?_⟩
  rw [rootEntries, List.getElem?_zipWith, List.getElem?_eq_getElem h₁, List.getElem?_eq_getElem h₂]

theorem numbers_lt {files : List Input} {k inum : Nat} (h : (numbers files)[k]? = some inum) :
    1 ≤ inum ∧ inum < files.length + 2 := by
  have mem := List.mem_of_getElem? h
  simp only [numbers, ROOTINO, List.mem_cons, List.mem_range'_1] at mem
  omega

section Root

variable {files : List Input} {m : Img} {dins : Nat → Dinode}

/-- The bytes of an entry as the kernel sees them. -/
theorem fileBytes_entry {c : Nat → List UInt8} (F : Finished m dins c) (k : Nat) :
    fileBytes m.sect (dins ROOTINO) (DIRENT * k) DIRENT =
      (List.range DIRENT).map fun j => (c ROOTINO).getD (DIRENT * k + j) 0 :=
  List.map_congr_left fun _ _ => F.blocks.bytes ROOTINO _

theorem direntAt_stored (F : Finished m dins (contents files)) (few : files.length + 2 ≤ NINODES)
    {k inum : Nat} {name : List UInt8} (hi : (numbers files)[k]? = some inum)
    (hn : (names files)[k]? = some name) :
    direntAt m.sect (dins ROOTINO) k = ⟨inum, strncpy DIRSIZ name⟩ := by
  have hk : k < files.length + 2 := by
    rw [← length_names]
    exact (List.getElem?_eq_some_iff.mp hn).1
  obtain ⟨inum', name', hi', hn', he⟩ := rootEntries_get hk
  obtain rfl : inum' = inum := Option.some.inj (hi'.symm.trans hi)
  obtain rfl : name' = name := Option.some.inj (hn'.symm.trans hn)
  have lens : ∀ y ∈ rootEntries files, y.length = DIRENT := by
    intro y hy
    obtain ⟨a, b, rfl⟩ : ∃ a b, putDirent ⟨a, strncpy DIRSIZ b⟩ = y := by
      obtain ⟨j, hj⟩ := List.mem_iff_getElem?.mp hy
      have hj' : j < files.length + 2 := by
        have := (List.getElem?_eq_some_iff.mp hj).1
        rw [rootEntries, List.length_zipWith, length_numbers, length_names] at this
        omega
      obtain ⟨a, b, -, -, e⟩ := rootEntries_get hj'
      exact ⟨a, b, Option.some.inj (e.symm.trans hj)⟩
    exact length_putDirent a b
  have slice := flatten_slice lens he
  have bytes : fileBytes m.sect (dins ROOTINO) (DIRENT * k) DIRENT =
      putDirent ⟨inum', strncpy DIRSIZ name'⟩ := by
    rw [fileBytes_entry F, ← slice, contents_root]
    refine List.ext_getElem (by rw [slice, length_putDirent]; simp) fun j h₁ h₂ => ?_
    have hj : j < DIRENT := by simpa using h₁
    rw [List.getElem_map, List.getElem_range, List.getElem_take, List.getElem_drop]
    exact List.getD_eq_getElem ..
  have := numbers_lt hi
  rw [direntAt, bytes, getDirent_putDirent (by simp only [NINODES] at few; omega)]

/-- Behind the last name the directory is zero. -/
theorem direntAt_blank (F : Finished m dins (contents files)) {k : Nat} (hk : files.length + 2 ≤ k) :
    (direntAt m.sect (dins ROOTINO) k).inum = 0 := by
  have bytes : fileBytes m.sect (dins ROOTINO) (DIRENT * k) DIRENT =
      (List.range DIRENT).map fun _ => 0 := by
    rw [fileBytes_entry F]
    refine List.map_congr_left fun j _ => List.getD_eq_default _ _ ?_
    rw [contents_root_length]
    simp only [DIRENT]
    omega
  rw [direntAt, bytes]
  rfl

theorem matches_iff (F : Finished m dins (contents files)) (few : files.length + 2 ≤ NINODES)
    (text : ∀ x ∈ names files, 0 ∉ x) {name : List UInt8} (hname : 0 ∉ name) (k : Nat) :
    (direntAt m.sect (dins ROOTINO) k).Matches name ↔
      ∃ x, (names files)[k]? = some x ∧ name.take DIRSIZ = x.take DIRSIZ := by
  rw [Dirent.Matches]
  by_cases hk : k < files.length + 2
  · obtain ⟨inum, x, hi, hx, -⟩ := rootEntries_get hk
    have := numbers_lt hi
    rw [direntAt_stored F few hi hx, hx, namecmp_strncpy hname (text x (List.mem_of_getElem? hx))]
    simp only [Option.some.injEq, exists_eq_left', and_iff_right_iff_imp]
    intro _
    omega
  · have out : (names files)[k]? = none := by
      rw [List.getElem?_eq_none_iff, length_names]
      omega
    rw [direntAt_blank F (by omega), out]
    simp

end Root

/-! ## The image as the kernel sees it -/

/-- What is asked of the arguments of mkfs. They are C strings, and a file is named by what is
left of its path without "user/" and one underscore. -/
structure Accepted (files : List Input) : Prop where
  text : ∀ f ∈ files, 0 ∉ f.name
  flat : ∀ f ∈ files, slash ∉ shortname f.name
  nonempty : ∀ f ∈ files, stored f ≠ []
  distinct : (files.map fun f => (stored f).take DIRSIZ).Nodup
  sizes : ∀ f ∈ files, f.bytes.length ≤ MAXFILE * BSIZE
  inodes : files.length + 2 ≤ sb.ninodes
  blocks : nmeta + slotsFor (DIRENT * (files.length + 2)) + blocksFor files ≤ FSSIZE
  root : (files.length + 2) % (BSIZE / DIRENT) ≠ 0

theorem Accepted.mkfs_ok {files : List Input} (A : Accepted files) : ∃ m, mkfs files = .ok m := by
  have few : files.length + 2 ≤ 200 := A.inodes
  have total := A.blocks
  refine mkfs_succeeds (few.trans (by decide)) (fit_of_total A.flat A.sizes ?_ ?_)
  · simp only [MAXFILE, NDIRECT, NINDIRECT, BSIZE, DIRENT]
    omega
  · rw [show 2 * DIRENT + DIRENT * files.length = DIRENT * (files.length + 2) by ring,
      show slotsFor (2 * DIRENT) = 1 from rfl]
    omega

theorem Accepted.names_text {files : List Input} (A : Accepted files) : ∀ x ∈ names files, 0 ∉ x := by
  simp only [names, List.mem_cons, List.mem_map]
  rintro x (rfl | rfl | ⟨f, hf, rfl⟩)
  · decide
  · decide
  · exact fun h => A.text f hf ((shortname_suffix _).subset ((stored_suffix f).subset h))

/-- The kernel has started on the image. mkfs leaves an empty log, so recovery has nothing to
do. -/
def started {ι : Type} (m : Img) (t : FsSt ι) : KSt ι :=
  { reboot (getSuperblock (m.sect 1)).logstart (getSuperblock (m.sect 1)).nlog m.sect t with up := true }

/-- No entry of the inode table is in use. -/
def Unused {ι : Type} (t : FsSt ι) : Prop := ∀ ip, (t.inode ip).ref = 0 ∧ (t.inode ip).lock = none

section Kernel

variable {ι : Type} {files : List Input} {m : Img} {dins : Nat → Dinode} {c : Nat → List UInt8} {t : FsSt ι}

theorem Finished.size_le (F : Finished m dins c) (few : (c ROOTINO).length < BSIZE * 4) (j : Nat) :
    (dins j).size ≤ MAXFILE * BSIZE := by
  by_cases unused : j = 0 ∨ m.freeinode ≤ j
  · rw [(F.unused j unused).1]
    exact Nat.zero_le _
  · by_cases root : j = ROOTINO
    · rw [root, F.root.2.2]
      simp only [MAXFILE, NDIRECT, NINDIRECT, BSIZE] at few ⊢
      omega
    · have low : ROOTINO < j := by
        simp only [ROOTINO] at root ⊢
        omega
      rw [(F.files j low (by omega)).2.2]
      exact F.small j

theorem Finished.sound (F : Finished m dins c) (few : (c ROOTINO).length < BSIZE * 4)
    (ragged : (c ROOTINO).length % BSIZE ≠ 0) : Sound sb m.sect dins fun j => (dins j).size where
  owned := by
    refine ⟨fun {i k} set => ?_, F.blocks.owned.inj⟩
    have used := F.blocks.owned.used set
    have high : ptrs m.sect dins i k < sb.size := used.2.trans_le F.room
    exact ⟨used.1, high, (F.bitmap_iff (Nat.div_le_div_right high.le)).mpr (Or.inr ⟨i, k, rfl⟩)⟩
  base b low high := (F.bitmap_iff (Nat.div_le_div_right high.le)).mpr (Or.inl low)
  noHole := F.noHole_iff.mpr ragged
  small := F.size_le few
  fits := F.blocks.fits

theorem Finished.booted (F : Finished m dins (contents files)) (A : Accepted files)
    (count : m.freeinode = files.length + 2) (unused : Unused t) : Booted sb (started m t) where
  ready := by
    have few : files.length + 2 ≤ 200 := A.inodes
    have hd : diskInodes sb m.sect = dins := F.diskInodes_eq (count ▸ few)
    have dead : ∀ ip, ¬ 0 < (t.inode ip).ref := fun ip => (unused ip).1.not_gt
    refine ⟨⟨by decide, fun j hj => ?_, by decide⟩, ?_, ?_, fun _ => rfl, ?_, ?_, ?_⟩
    · have : j < 200 := hj
      exact iblock_lt (by rw [inodeRoom_eq]; omega)
    · show Sound sb m.sect (diskInodes sb m.sect) fun j => (diskInodes sb m.sect j).size
      rw [hd]
      refine F.sound ?_ ((root_full_iff files).mpr A.root)
      rw [contents_root_length]
      simp only [DIRENT, BSIZE]
      omega
    · exact ⟨fun _ => rfl, List.nodup_nil, fun _ _ _ => rfl⟩
    · exact fun ip live => absurd live (dead ip)
    · exact fun ip live => absurd live (dead ip)
    · exact fun ip _ live => absurd live (dead ip)
  fresh := unused
  quiet := rfl

theorem Finished.rootOk (F : Finished m dins (contents files)) (A : Accepted files)
    (count : m.freeinode = files.length + 2) : RootOk sb m.sect := by
  have hd := F.diskInodes_eq (count ▸ A.inodes)
  refine ⟨by decide, ?_, ?_, ?_⟩
  · rw [hd, F.root.2.1]
  · rw [hd, F.rootLink]
    decide
  · rw [hd, F.root.2.2]
    exact Dvd.dvd.mul_left (by decide) _

theorem Finished.entry_small (F : Finished m dins (contents files)) (A : Accepted files) (k : Nat) :
    (direntAt m.sect (dins ROOTINO) k).inum < sb.ninodes := by
  by_cases hk : k < files.length + 2
  · obtain ⟨inum, x, hi, hx, -⟩ := rootEntries_get hk
    rw [direntAt_stored F A.inodes hi hx]
    exact (numbers_lt hi).2.trans_le A.inodes
  · rw [direntAt_blank F (by omega)]
    decide

/-- The entries are inside the directory. -/
theorem Finished.entry_inside (F : Finished m dins (contents files)) {k : Nat}
    (hk : k < files.length + 2) : DIRENT * k < (dins ROOTINO).size := by
  rw [F.root.2.2, contents_root_length]
  simp only [DIRENT, BSIZE]
  omega

/-- The bytes that `readi` returns. -/
theorem Finished.fileBytes_eq (F : Finished m dins c) {j : Nat} (size : (dins j).size = (c j).length) :
    fileBytes m.sect (dins j) 0 (dins j).size = c j := by
  rw [size, fileBytes]
  refine List.ext_getElem (by simp) fun n h₁ h₂ => ?_
  rw [List.getElem_map, List.getElem_range, F.blocks.bytes, Nat.zero_add, List.getD_eq_getElem]

theorem names_distinct (A : Accepted files)
    (plain : ∀ f ∈ files, stored f ≠ [dot] ∧ stored f ≠ [dot, dot]) :
    ((names files).map (·.take DIRSIZ)).Nodup := by
  have short : ∀ {x y : List UInt8}, x.length < DIRSIZ → y.take DIRSIZ = x → y = x := by
    intro x y hx h
    rw [← h, List.length_take] at hx
    rw [← h, List.take_of_length_le (by omega)]
  simp only [names, List.map_cons, List.map_map, List.nodup_cons, List.mem_cons, List.mem_map,
    Function.comp_def, not_or, not_exists, not_and]
  refine ⟨⟨by decide, fun f hf h => ?_⟩, fun f hf h => ?_, A.distinct⟩
  · exact (plain f hf).1 (short (by decide) h)
  · exact (plain f hf).2 (short (by decide) h)

/-- The number at the place of a file in the root directory is that of its inode. -/
theorem number_of_file {j : Nat} (hj : j < files.length) : (numbers files)[j + 2]? = some (j + 2) := by
  show (List.range' (ROOTINO + 1) files.length)[j]? = some (j + 2)
  rw [List.getElem?_range' hj]
  simp only [ROOTINO]
  congr 1
  omega

variable [DecidableEq ι] {i : ι}

/-- `lookupFile` reads the first file that has the name. -/
theorem Finished.run_lookupFile (F : Finished m dins (contents files)) (A : Accepted files)
    (count : m.freeinode = files.length + 2) (unused : Unused t) {k inum : Nat} {x name : List UInt8}
    (hi : (numbers files)[k]? = some inum) (hx : (names files)[k]? = some x) (text : 0 ∉ name)
    (flat : slash ∉ name) (ne : name ≠ []) (same : name.take DIRSIZ = x.take DIRSIZ)
    (first : ∀ j < k, ∀ y, (names files)[j]? = some y → name.take DIRSIZ ≠ y.take DIRSIZ)
    (type : (dins inum).type ≠ 0) :
    Run strict i (lookupFile sb (slash :: name)) (started m t) fun r _ =>
      r = some ((dins inum).type, (dins inum).nlink, (dins inum).size,
        fileBytes m.sect (dins inum) 0 (dins inum).size) := by
  have hd := F.diskInodes_eq (count ▸ A.inodes)
  have hk : k < files.length + 2 := by
    rw [← length_names]
    exact (List.getElem?_eq_some_iff.mp hx).1
  have entry := direntAt_stored F A.inodes hi hx
  have text' : 0 ∉ name.take DIRSIZ := fun h => text (List.mem_of_mem_take h)
  have matches' := matches_iff F A.inodes A.names_text text'
  simp only [List.take_take, min_self] at matches'
  have found := @Fs.run_lookupFile ι _ i _ _ name (F.booted A count unused) (F.rootOk A count)
  rw [show (started m t).cache = m.sect from rfl, hd] at found
  refine found (fun k _ => F.entry_small A k) ne flat (k := k) (F.entry_inside hk) ?_ ?_ ?_ type
  · exact (matches' k).mpr ⟨x, hx, same⟩
  · intro j hj here
    obtain ⟨y, hy, eq⟩ := (matches' j).mp here
    exact first j hj y hy eq
  · rw [entry]

/-- `lookupRoot` finds the names that are there. -/
theorem Finished.run_lookupRoot (F : Finished m dins (contents files)) (A : Accepted files)
    (count : m.freeinode = files.length + 2) (unused : Unused t) {name : List UInt8} (text : 0 ∉ name) :
    Run strict i (lookupRoot sb name) (started m t) fun r _ =>
      r.isSome ↔ name.take DIRSIZ ∈ (names files).map (·.take DIRSIZ) := by
  have hd := F.diskInodes_eq (count ▸ A.inodes)
  have found := @Fs.run_lookupRoot ι _ i _ _ name (F.booted A count unused) (F.rootOk A count)
  rw [show (started m t).cache = m.sect from rfl, hd] at found
  refine (found fun k _ => F.entry_small A k).mono fun r _ answer => ?_
  have hit := matches_iff F A.inodes A.names_text text
  rw [Option.isSome_iff_exists, List.mem_map]
  constructor
  · rintro ⟨inum, h⟩
    obtain ⟨k, -, here, -, -⟩ := (answer inum).mp h
    obtain ⟨x, hx, eq⟩ := (hit k).mp here
    exact ⟨x, List.mem_of_getElem? hx, eq.symm⟩
  · rintro ⟨x, hx, eq⟩
    obtain ⟨k, hk⟩ := List.mem_iff_getElem?.mp hx
    have some : ∃ k, (direntAt m.sect (dins ROOTINO) k).Matches name := ⟨k, (hit k).mpr ⟨x, hk, eq.symm⟩⟩
    obtain ⟨y, hy, -⟩ := (hit _).mp (Nat.find_spec some)
    have inside : Nat.find some < files.length + 2 := by
      rw [← length_names]
      exact (List.getElem?_eq_some_iff.mp hy).1
    exact ⟨_, (answer _).mpr ⟨Nat.find some, F.entry_inside inside, Nat.find_spec some,
      fun j hj => Nat.find_min some hj, rfl⟩⟩

/-- Whatever the input files are, the kernel finds each of them under its name and reads
what was written, and finds no other name. -/
theorem mkfs_kernel_agree (A : Accepted files)
    (plain : ∀ f ∈ files, stored f ≠ [dot] ∧ stored f ≠ [dot, dot]) :
    ∃ m, mkfs files = .ok m ∧ ∀ t : FsSt ι, Unused t →
      (∀ f ∈ files, ∀ name, 0 ∉ name → slash ∉ name → name.take DIRSIZ = (stored f).take DIRSIZ →
        Run strict i (lookupFile (getSuperblock (m.sect 1)) (slash :: name)) (started m t)
          fun r _ => r = some (T_FILE, 1, f.bytes.length, f.bytes)) ∧
      ∀ name, 0 ∉ name →
        Run strict i (lookupRoot (getSuperblock (m.sect 1)) name) (started m t) fun r _ =>
          r.isSome ↔ name.take DIRSIZ ∈ (names files).map (·.take DIRSIZ) := by
  obtain ⟨m, h⟩ := A.mkfs_ok
  obtain ⟨count, dins, F⟩ := mkfs_ok (A.inodes.trans (by decide)) h
  refine ⟨m, h, fun t unused => ?_⟩
  rw [F.super, getSuperblock_put]
  constructor
  · intro f hf name text flat same
    obtain ⟨j, hj⟩ := List.mem_iff_getElem?.mp hf
    have len : j < files.length := (List.getElem?_eq_some_iff.mp hj).1
    have hx : (names files)[j + 2]? = some (stored f) := by simp [names, hj]
    have file := F.files (j + 2) (by simp only [ROOTINO]; omega) (by omega)
    have bytes : contents files (j + 2) = f.bytes := by
      rw [Nat.add_comm]
      exact addTo_file _ (by decide) hj
    have found := F.run_lookupFile (i := i) A count unused (number_of_file len) hx text flat
    rw [F.fileBytes_eq file.2.2, file.1, file.2.1, file.2.2, bytes] at found
    refine found ?_ same ?_ (by decide)
    · rintro rfl
      exact A.nonempty f hf (List.take_eq_nil_iff.mp same.symm |>.resolve_left (by decide))
    · intro k hk y hy eq
      have distinct := List.nodup_iff_getElem?_ne_getElem?.mp (names_distinct A plain) k (j + 2) hk
      rw [List.length_map, length_names, List.getElem?_map, List.getElem?_map, hy, hx] at distinct
      exact distinct (by omega) (by simp [← eq, same])
  · exact fun name text => F.run_lookupRoot A count unused text

/-- One file of three bytes. -/
def oneFile : List Input := [⟨[95, 97], [⟨[1, 2, 3], by decide⟩]⟩]

theorem oneFile_accepted : Accepted oneFile :=
  ⟨by decide, by decide, by decide, by decide, by decide, by decide, by decide, by decide⟩

theorem mkfs_kernel_agree_one : ∃ m, mkfs oneFile = .ok m ∧ ∀ t : FsSt (Fin 1), Unused t →
    Run strict 0 (lookupFile (getSuperblock (m.sect 1)) [47, 97]) (started m t)
      fun r _ => r = some (T_FILE, 1, 3, [1, 2, 3]) := by
  obtain ⟨m, h, agree⟩ := @mkfs_kernel_agree (Fin 1) oneFile _ 0 oneFile_accepted (by decide)
  refine ⟨m, h, fun t unused => ?_⟩
  exact (agree t unused).1 _ List.mem_cons_self [97] (by decide) (by decide) (by decide)

/-- A file that is called "_.". -/
def dotFile : List Input := [⟨[95, 46], []⟩]

/-- It is stored as ".", behind the entry for the root directory itself, and the kernel finds
that one. -/
theorem dot_is_not_a_file : Accepted dotFile ∧ ∃ m, mkfs dotFile = .ok m ∧
    ∀ t : FsSt (Fin 1), Unused t → Run strict 0 (lookupFile (getSuperblock (m.sect 1)) [47, 46]) (started m t)
      fun r _ => ∃ nlink size bytes, r = some (T_DIR, nlink, size, bytes) := by
  have A : Accepted dotFile :=
    ⟨by decide, by decide, by decide, by decide, by decide, by decide, by decide, by decide⟩
  obtain ⟨m, h⟩ := A.mkfs_ok
  obtain ⟨count, dins, F⟩ := mkfs_ok (A.inodes.trans (by decide)) h
  refine ⟨A, m, h, fun t unused => ?_⟩
  rw [F.super, getSuperblock_put]
  have type : (dins ROOTINO).type = T_DIR := F.root.2.1
  have text : (0 : UInt8) ∉ [dot] := by decide
  refine (F.run_lookupFile (k := 0) A count unused rfl rfl text (by decide) (by decide) rfl nofun
    (by rw [type]; decide)).mono ?_
  rintro r - rfl
  exact ⟨_, _, _, by rw [type]⟩

end Kernel

end Xv6.Mkfs
