import Mathlib
import Xv6.Fs.Readi
import Xv6.Vm.Exec
import Xv6.Vm.Fork

/-!
# Building the image of a program

`Image` is what holds of a page table that `exec` is building: its user pages hold the bytes `what`,
and it was made of free pages only, so that all of it can be given back.
-/

namespace Xv6.Vm

open Bytes Fallible Radix
open Xv6.Fs (PGSIZE MAXFILE addU)

/-! ## Writing bytes -/

/-- The bytes `what` after `l` has been written at address `a`. -/
def patch (what : Nat → UInt8) (a : Nat) (l : List UInt8) : Nat → UInt8 := fun x =>
  if a ≤ x ∧ x < a + l.length then l.getD (x - a) 0 else what x

section Patch

variable {what : Nat → UInt8} {a x : Nat} {l l' : List UInt8}

theorem patch_nil : patch what a [] = what := by
  funext x
  rw [patch, if_neg (by simp)]

theorem patch_outside (h : x < a ∨ a + l.length ≤ x) : patch what a l x = what x := if_neg (by omega)

theorem patch_append : patch (patch what a l) (a + l.length) l' = patch what a (l ++ l') := by
  funext x
  simp only [patch, List.length_append]
  by_cases first : a ≤ x ∧ x < a + l.length
  · rw [if_neg (by omega), if_pos first, if_pos (by omega), List.getD_append _ _ _ _ (by omega)]
  · rw [if_neg first]
    by_cases second : a + l.length ≤ x ∧ x < a + l.length + l'.length
    · rw [if_pos second, if_pos (by omega), List.getD_append_right _ _ _ _ (by omega), Nat.sub_add_eq]
    · rw [if_neg second, if_neg (by omega)]

end Patch

/-! ## Images -/

variable {K : Symbols} {m m' m₀ : Mem} {r q sz k p : Nat} {N T F F₀ : Set Nat} {P : Prop}
variable {t : Nat → Option (Nat × Nat)} {flags : Nat → Nat} {what : Nat → UInt8}

/-- An image built in the memory `m₀` from the free pages `F₀`; the trapframe is in page `q`. -/
structure ImageOf (K : Symbols) (m₀ : Mem) (F₀ : Set Nat) (r q : Nat) (m : Mem) (sz : Nat) (flags : Nat → Nat)
    (what : Nat → UInt8) (t : Nat → Option (Nat × Nat)) (N T F : Set Nat) : Prop where
  img : Img K m r (pages sz) t N T
  free : Frees K m F
  apart : Disjoint T F
  total : T ∪ F = F₀
  only : Only F₀ m₀ m
  gap : ∀ j, pages sz ≤ j → j < NPAGES - 2 → t j = none
  top : Top K t q
  page : ∀ k < pages sz, ∃ p, t k = some (p * PGSIZE, flags k) ∧
    ∀ o < PGSIZE, (m.page p).get o = what (k * PGSIZE + o)
  beyond : ∀ a, pages sz * PGSIZE ≤ a → what a = 0

def Image (K : Symbols) (m₀ : Mem) (F₀ : Set Nat) (r q : Nat) (m : Mem) (sz : Nat) (flags : Nat → Nat)
    (what : Nat → UInt8) : Prop :=
  ∃ t N T F, ImageOf K m₀ F₀ r q m sz flags what t N T F

/-- Every page may be used by the program. -/
abbrev allUser : Nat → Nat := fun _ => userFlags

namespace ImageOf

theorem frame_mem (im : ImageOf K m₀ F₀ r q m sz flags what t N T F) {f : Nat} (hk : k < pages sz)
    (h : t k = some (p * PGSIZE, f)) : p ∈ T := im.img.frames_sub (mem_frames hk h)

/-- A user page is neither a table nor free. -/
theorem frame_apart (im : ImageOf K m₀ F₀ r q m sz flags what t N T F) {f : Nat} (hk : k < pages sz)
    (h : t k = some (p * PGSIZE, f)) : p ∉ N ∪ F := by
  rintro (hN | hF)
  · exact im.img.not_table (mem_frames hk h) hN
  · exact Set.disjoint_left.mp im.apart (im.frame_mem hk h) hF

theorem sub (im : ImageOf K m₀ F₀ r q m sz flags what t N T F) : T ⊆ F₀ ∧ F ⊆ F₀ := by
  rw [← im.total]
  exact ⟨Set.subset_union_left, Set.subset_union_right⟩

/-- Bytes stored in one user page. -/
theorem store (im : ImageOf K m₀ F₀ r q m sz flags what t N T F) {f o : Nat} {l : List UInt8} (hk : k < pages sz)
    (h : t k = some (p * PGSIZE, f)) (fits : o + l.length ≤ PGSIZE) (ho : o < PGSIZE) :
    ImageOf K m₀ F₀ r q (m.put (p * PGSIZE + o) l) sz flags (patch what (k * PGSIZE + o) l) t N T F := by
  have away := im.frame_apart hk h
  have other : ∀ x, x ≠ p → (m.put (p * PGSIZE + o) l).page x = m.page x := fun x hx => put_page_other ho hx
  have inT := im.frame_mem hk h
  refine ⟨im.img.frame fun x hx => other x ?_, im.free.frame rfl fun x hx => other x ?_, im.apart, im.total,
    im.only.trans fun x hx => other x ?_, im.gap, im.top, ?_, ?_⟩
  · rintro rfl
    exact away (.inl hx)
  · rintro rfl
    exact away (.inr hx)
  · rintro rfl
    exact hx (im.sub.1 inT)
  · intro j hj
    obtain ⟨x, entry, bytes⟩ := im.page j hj
    refine ⟨x, entry, fun i hi => ?_⟩
    by_cases same : j = k
    · subst same
      obtain ⟨e, -⟩ := some_inj (h.symm.trans entry)
      obtain rfl := base_inj e
      rw [put_page_same ho, Buffer.get_put fits, patch, bytes i hi]
      by_cases inside : o ≤ i ∧ i < o + l.length
      · rw [if_pos inside, if_pos (by omega), Nat.add_sub_add_left]
      · rw [if_neg inside, if_neg (by omega)]
    · have differ : x ≠ p := by
        rintro rfl
        exact same (im.img.inj j k x _ _ hj hk entry h)
      rw [other x differ, bytes i hi]
      refine (patch_outside ?_).symm
      have : j * PGSIZE + PGSIZE ≤ k * PGSIZE ∨ k * PGSIZE + PGSIZE ≤ j * PGSIZE := by
        simp only [PGSIZE]
        omega
      omega
  · intro a ha
    have : (k + 1) * PGSIZE ≤ pages sz * PGSIZE := Nat.mul_le_mul_right _ hk
    rw [Nat.add_mul, Nat.one_mul] at this
    rw [patch_outside (by omega)]
    exact im.beyond a ha

end ImageOf

/-- A call of `uvmalloc` that failed has left the image as it was. -/
theorem ImageOf.refused (im : ImageOf K m₀ F₀ r q m sz flags what t N T F)
    (h : Refused K m m' r (pages sz) (pages sz) t N T F) : Image K m₀ F₀ r q m' sz flags what := by
  obtain ⟨N', T', F', img, free, apart, total, only⟩ := h
  rw [erase_none le_rfl] at img
  rw [frames_none le_rfl, Set.union_empty] at only
  have sub : N ∪ F ⊆ F₀ := Set.union_subset (im.img.tables_sub.trans im.sub.1) im.sub.2
  refine ⟨t, N', T', F', img, free, apart, total.trans im.total, im.only.trans (only.mono sub), im.gap, im.top, ?_,
    im.beyond⟩
  intro k hk
  obtain ⟨p, entry, bytes⟩ := im.page k hk
  refine ⟨p, entry, fun o ho => ?_⟩
  rw [only p (im.frame_apart hk entry), bytes o ho]

/-- One that succeeded has added pages of zeros. -/
theorem ImageOf.extended {new : Nat} (im : ImageOf K m₀ F₀ r q m sz allUser what t N T F) (le : sz ≤ new)
    (h : Extended K m m' r (pages sz) (pages new) t N T F blank) : Image K m₀ F₀ r q m' new allUser what := by
  obtain ⟨t', N', T', F', img, free, apart, total, only, same, zero⟩ := h
  have more := pages_mono le
  rw [Nat.max_eq_right more] at img
  have high : pages new ≤ NPAGES - 2 := img.le_ram.trans (by decide)
  have sub : N ∪ F ⊆ F₀ := Set.union_subset (im.img.tables_sub.trans im.sub.1) im.sub.2
  refine ⟨t', N', T', F', img, free, apart, total.trans im.total, im.only.trans (only.mono sub), ?_, ⟨?_, ?_⟩, ?_, ?_⟩
  · intro j low below
    rw [same j (by omega)]
    exact im.gap j (by omega) below
  · rw [same _ (by omega)]
    exact im.top.trampoline
  · rw [same _ (by omega)]
    exact im.top.trapframe
  · intro k hk
    by_cases old : k < pages sz
    · obtain ⟨p, entry, bytes⟩ := im.page k old
      refine ⟨p, (same k (by omega)).trans entry, fun o ho => ?_⟩
      rw [only p (im.frame_apart old entry), bytes o ho]
    · obtain ⟨p, -, entry, page⟩ := zero k (by omega) hk
      refine ⟨p, entry, fun o ho => ?_⟩
      have : pages sz * PGSIZE ≤ k * PGSIZE := Nat.mul_le_mul_right _ (by omega)
      rw [page, im.beyond (k * PGSIZE + o) (this.trans (Nat.le_add_right ..))]
      exact Buffer.get_zero o
  · intro a ha
    exact im.beyond a ((Nat.mul_le_mul_right _ more).trans ha)

/-- `uvmalloc` for an image. -/
theorem run_uvmalloc_image {new : Nat} (im : Image K m₀ F₀ r q m sz allUser what) :
    Meets (uvmalloc K (r * PGSIZE) sz new) m P fun x m' =>
      x = 0 ∧ Image K m₀ F₀ r q m' sz allUser what ∨
      x = max sz new ∧ Image K m₀ F₀ r q m' (max sz new) allUser what := by
  obtain ⟨t, N, T, F, im⟩ := im
  by_cases le : sz ≤ new
  · rw [Nat.max_eq_right le]
    refine (run_uvmalloc im.img im.free im.apart le im.gap).mono ?_
    rintro x m' (⟨rfl, refused⟩ | ⟨rfl, extended⟩)
    · exact .inl ⟨rfl, im.refused refused⟩
    · exact .inr ⟨rfl, im.extended le extended⟩
  · rw [uvmalloc, if_pos (by omega), Nat.max_eq_left (by omega)]
    exact Meets.pure (.inr ⟨rfl, t, N, T, F, im⟩)

/-! ## `readi` -/

section Readi

variable {file : File} {off n : Nat}

theorem File.size_le (file : File) : file.size ≤ 274432 := file.small

theorem readi_eq (h : off + n ≤ file.size) : file.readi off n = (file.bytes.drop off).take n := by
  have small := file.size_le
  have sum : addU off n = off + n := Nat.mod_eq_of_lt (by omega)
  rw [File.readi, sum, if_neg (by omega), if_neg (by omega)]

/-- `readi` returns `n` if the file has these bytes. -/
theorem readi_length (pos : 0 < n) (h : (file.readi off n).length = n) : off + n ≤ file.size := by
  have small := file.size_le
  rw [File.readi] at h
  split at h
  case isTrue =>
    rw [List.length_nil] at h
    omega
  case isFalse inside =>
    rw [List.length_take, List.length_drop] at h
    have size : file.bytes.length = file.size := rfl
    omega

theorem readi_length_le : (file.readi off n).length ≤ n := by
  rw [File.readi]
  split
  case isTrue => exact Nat.zero_le n
  case isFalse inside =>
    rw [List.length_take]
    split
    · have := file.size_le
      have : off + n < 2 ^ 32 ∨ 2 ^ 32 ≤ off + n := by omega
      simp only [addU] at *
      omega
    · omega

end Readi

/-- The file in an inode. -/
def File.ofInode {c : Nat → Block} {din : Fs.Dinode} (whole : Fs.Whole c din) : File where
  bytes := Fs.fileBytes c din 0 din.size
  small := by
    rw [Fs.length_fileBytes]
    exact whole.small

section Inode

variable {c : Nat → Block} {din : Fs.Dinode} {off n : Nat}

theorem fileBytes_drop_take (h : off + n ≤ din.size) :
    ((Fs.fileBytes c din 0 din.size).drop off).take n = Fs.fileBytes c din off n := by
  obtain ⟨rest, size⟩ := Nat.exists_eq_add_of_le h
  have split : Fs.fileBytes c din 0 din.size =
      Fs.fileBytes c din 0 off ++ (Fs.fileBytes c din off n ++ Fs.fileBytes c din (off + n) rest) := by
    rw [size, Nat.add_assoc, Fs.fileBytes_add, Fs.fileBytes_add, Nat.zero_add]
  rw [split, List.drop_left' Fs.length_fileBytes, List.take_left' Fs.length_fileBytes]

theorem readi_ofInode (whole : Fs.Whole c din) (hoff : off < 2 ^ 32) (hn : n < 2 ^ 32) :
    (File.ofInode whole).readi off n = Fs.fileBytes c din off (Fs.readCount din.size off n) := by
  have size : (File.ofInode whole).size = din.size := Fs.length_fileBytes
  have small := (File.ofInode whole).size_le
  rw [size] at small
  rw [File.readi, size, Fs.readCount]
  by_cases inside : off ≤ din.size ∧ off + n < 2 ^ 32
  · have sum : addU off n = off + n := Nat.mod_eq_of_lt inside.2
    have count : (if din.size < addU off n then din.size - off else n) = min n (din.size - off) := by
      rw [sum]
      split <;> omega
    rw [if_neg (by omega), if_pos inside, count]
    exact fileBytes_drop_take (by omega)
  · have wrap : addU off n < off ∨ din.size < off := by
      simp only [addU]
      omega
    rw [if_pos wrap.symm, if_neg inside]
    rfl

/-- `readi` of the file system returns these bytes. -/
theorem run_readi_file {ι α : Type} [DecidableEq ι] {P : Log.Policy} {i : ι} {sb : Fs.Superblock} {s : Fs.KSt ι}
    {Q : α → Fs.KSt ι → Prop} {ip : Fs.IPtr} {f : Int × List UInt8 → Fs.FsCode ι α} (R : Fs.Reader P s)
    (hdin : (s.aux.inode ip).din = din) (whole : Fs.Whole s.cache din) (hoff : off < 2 ^ 32) (hn : n < 2 ^ 32)
    (rest : Fs.Run P i (f (((File.ofInode whole).readi off n).length, (File.ofInode whole).readi off n)) s Q) :
    Fs.Run P i (Fs.readi sb ip .kernel off n >>= f) s Q := by
  refine Fs.run_readi_kernel R hdin whole hoff hn ?_
  rw [readi_ofInode whole hoff hn, Fs.length_fileBytes] at rest
  exact rest

end Inode

/-! ## `loadseg` -/

theorem Image.bound (im : Image K m₀ F₀ r q m sz flags what) : pages sz ≤ 32768 := by
  obtain ⟨t, N, T, F, im⟩ := im
  exact im.img.le_ram

theorem store_run {a : Nat} {l : List UInt8} : store a l m = .ok ((), m.put a l) := rfl

theorem walkaddr_user {va : Nat} (im : ImageOf K m₀ F₀ r q m sz flags what t N T F)
    (h : t (va / PGSIZE) = some (p * PGSIZE, userFlags)) :
    Meets (walkaddr (r * PGSIZE) va) m P fun pa m' => m' = m ∧ pa = p * PGSIZE := by
  refine (run_walkaddr im.img.space).mono ?_
  rintro pa m' ⟨rfl, rfl⟩
  rw [h]
  exact ⟨rfl, rfl⟩

section Segments

variable {file : File} {v off n : Nat}

/-- The bytes of a file in a range. -/
def File.range (file : File) (off n : Nat) : List UInt8 := (file.bytes.drop off).take n

theorem length_range (h : off + n ≤ file.size) : (file.range off n).length = n := by
  have size : file.bytes.length = file.size := rfl
  rw [File.range, List.length_take, List.length_drop]
  omega

theorem range_add {a b : Nat} : file.range off (a + b) = file.range off a ++ file.range (off + a) b := by
  rw [File.range, File.range, File.range, List.take_add, List.drop_drop]

/-- A round reads a page, or what is left of the segment. -/
theorem segLen_spec {j : Nat} (more : j * PGSIZE < n) : 0 < segLen n (j * PGSIZE) ∧ segLen n (j * PGSIZE) ≤ PGSIZE ∧
    j + 1 ≤ pages n ∧ (segLen n (j * PGSIZE) = PGSIZE ∧ (j + 1) * PGSIZE ≤ n ∨
      segLen n (j * PGSIZE) = n - j * PGSIZE ∧ n ≤ (j + 1) * PGSIZE) := by
  simp only [segLen, pages, PGSIZE] at *
  split <;> omega

theorem addU_page {j : Nat} (h : j + 1 ≤ 32768) : addU (j * PGSIZE) PGSIZE = (j + 1) * PGSIZE := by
  simp only [addU, PGSIZE]
  omega

section Round

variable {j : Nat} (read : off + j * PGSIZE + segLen n (j * PGSIZE) ≤ file.size)
variable (last : segLen n (j * PGSIZE) = PGSIZE ∧ (j + 1) * PGSIZE ≤ n ∨
  segLen n (j * PGSIZE) = n - j * PGSIZE ∧ n ≤ (j + 1) * PGSIZE)
include read

theorem segment_next : off + (j + 1) * PGSIZE < 2 ^ 32 := by
  have := file.size_le
  simp only [PGSIZE] at *
  omega

include last

theorem segment_size (more : j * PGSIZE < n) (size : (j + 1) * PGSIZE < n → off + n ≤ file.size) :
    off + n ≤ file.size := by
  simp only [PGSIZE] at *
  omega

theorem segment_patch :
    patch (patch what ((v + j) * PGSIZE) (file.range (off + j * PGSIZE) (segLen n (j * PGSIZE))))
        ((v + (j + 1)) * PGSIZE) (file.range (off + (j + 1) * PGSIZE) (n - (j + 1) * PGSIZE)) =
      patch what ((v + j) * PGSIZE) (file.range (off + j * PGSIZE) (n - j * PGSIZE)) := by
  rcases last with ⟨full, more⟩ | ⟨rest, done⟩
  · have length := length_range read
    rw [full] at length ⊢
    have place : (v + (j + 1)) * PGSIZE = (v + j) * PGSIZE + (file.range (off + j * PGSIZE) PGSIZE).length := by
      rw [length, ← Nat.add_assoc, Nat.add_mul _ 1, Nat.one_mul]
    have whole : n - j * PGSIZE = PGSIZE + (n - (j + 1) * PGSIZE) := by
      simp only [PGSIZE] at *
      omega
    have start : off + (j + 1) * PGSIZE = off + j * PGSIZE + PGSIZE := by
      rw [Nat.add_mul, Nat.one_mul, Nat.add_assoc]
    rw [place, patch_append, start, ← range_add, whole]
  · rw [rest, Nat.sub_eq_zero_of_le done, File.range, File.range, List.take_zero, patch_nil]

end Round

/-- The rounds of `loadseg` from page `j` of the segment on. -/
theorem run_loadsegFrom {rounds j : Nat} (im : Image K m₀ F₀ r q m sz allUser what)
    (fits : v * PGSIZE + n ≤ pages sz * PGSIZE) (hoff : off + j * PGSIZE < 2 ^ 32) (hj : j ≤ pages n)
    (fuel : NPAGES < j + rounds) :
    Meets (loadsegFrom (r * PGSIZE) (v * PGSIZE) file off n rounds (j * PGSIZE)) m P fun x m' => ∃ what',
      Image K m₀ F₀ r q m' sz allUser what' ∧ (x = -1 ∨ x = 0 ∧ (j * PGSIZE < n → off + n ≤ file.size) ∧
        what' = patch what ((v + j) * PGSIZE) (file.range (off + j * PGSIZE) (n - j * PGSIZE))) := by
  have bound := im.bound
  have room : pages n ≤ 32768 := by
    simp only [pages, PGSIZE] at *
    omega
  induction rounds generalizing j m what with
  | zero =>
    simp only [NPAGES, MAXVA, PGSIZE] at fuel
    omega
  | succ rounds ih =>
    rw [loadsegFrom]
    split
    case isFalse done =>
      refine Meets.pure ⟨what, im, .inr ⟨rfl, fun h => absurd h done, ?_⟩⟩
      rw [Nat.sub_eq_zero_of_le (Nat.le_of_not_lt done), File.range, List.take_zero, patch_nil]
    case isTrue more =>
      obtain ⟨t, N, T, F, im⟩ := im
      have inside : v + j < pages sz := by
        simp only [PGSIZE] at *
        omega
      obtain ⟨p, entry, -⟩ := im.page (v + j) inside
      have addr : (v * PGSIZE + j * PGSIZE) % 2 ^ 64 = (v + j) * PGSIZE := by
        simp only [PGSIZE] at *
        omega
      have ram := im.img.ram (mem_frames inside entry)
      have here : addU off (j * PGSIZE) = off + j * PGSIZE := Nat.mod_eq_of_lt hoff
      obtain ⟨pos, short, next, last⟩ := segLen_spec more
      rw [addr, here]
      refine Meets.bind (walkaddr_user im (by rwa [base_div])) ?_
      rintro _ m ⟨rfl, rfl⟩
      rw [if_neg ram.pos.ne']
      have stored : ImageOf K m₀ F₀ r q (m.put (p * PGSIZE) (file.readi (off + j * PGSIZE) (segLen n (j * PGSIZE)))) sz
          allUser (patch what ((v + j) * PGSIZE) (file.readi (off + j * PGSIZE) (segLen n (j * PGSIZE)))) t N T F := by
        have := im.store (o := 0) (l := file.readi (off + j * PGSIZE) (segLen n (j * PGSIZE))) inside entry
          (by rw [Nat.zero_add]; exact readi_length_le.trans short) (by decide)
        rwa [Nat.add_zero, Nat.add_zero] at this
      refine Meets.step (store_run (a := p * PGSIZE)) ?_
      split
      case isTrue cut => exact Meets.pure ⟨_, ⟨t, N, T, F, stored⟩, .inl rfl⟩
      case isFalse whole =>
        have read := readi_length pos (not_not.mp whole)
        have step := addU_page (next.trans room)
        rw [readi_eq read] at stored ⊢
        rw [step]
        refine (ih (j := j + 1) ⟨t, N, T, F, stored⟩ ?_ next (by rw [Nat.add_assoc, Nat.add_comm 1]; exact fuel)).mono ?_
        · exact segment_next read
        · rintro x m' ⟨what', im', failed | ⟨rfl, size, rfl⟩⟩
          · exact ⟨what', im', .inl failed⟩
          · refine ⟨_, im', .inr ⟨rfl, fun _ => ?_, ?_⟩⟩
            · exact segment_size read last more size
            · exact segment_patch read last

/-- `loadseg` copies a range of the file, or fails with the image still whole. -/
theorem run_loadseg (im : Image K m₀ F₀ r q m sz allUser what) (fits : v * PGSIZE + n ≤ pages sz * PGSIZE)
    (hoff : off < 2 ^ 32) :
    Meets (loadseg (r * PGSIZE) (v * PGSIZE) file off n) m P fun x m' => ∃ what',
      Image K m₀ F₀ r q m' sz allUser what' ∧ (x = -1 ∨ x = 0 ∧ (0 < n → off + n ≤ file.size) ∧
        what' = patch what (v * PGSIZE) (file.range off n)) := by
  have run : Meets (loadsegFrom (r * PGSIZE) (v * PGSIZE) file off n (NPAGES + 1) (0 * PGSIZE)) m P _ :=
    run_loadsegFrom im fits (by omega) (Nat.zero_le _) (by omega)
  simp only [Nat.zero_mul, Nat.add_zero, Nat.sub_zero] at run
  exact run

end Segments

/-! ## Program headers -/

/-- The program headers of a file. -/
def File.headers (file : File) (off n : Nat) : List Proghdr :=
  (List.range n).map fun i => .ofBytes (file.range (off + i * PROGHDR) PROGHDR)

/-- The bytes after a header; `narrow` is what becomes of its offset. -/
def File.load (file : File) (narrow : Nat → Nat) (what : Nat → UInt8) (ph : Proghdr) : Nat → UInt8 :=
  if ph.type = ELF_PROG_LOAD then patch what ph.vaddr (file.range (narrow ph.off) ph.filesz) else what

/-- Zero everywhere, overlaid by the segments in the order of the headers. -/
def File.image (file : File) (narrow : Nat → Nat) (hs : List Proghdr) : Nat → UInt8 :=
  hs.foldl (file.load narrow) fun _ => 0

/-- The file has the bytes of the segment. -/
def File.Has (file : File) (narrow : Nat → Nat) (ph : Proghdr) : Prop :=
  ph.type = ELF_PROG_LOAD → 0 < ph.filesz → narrow ph.off + ph.filesz ≤ file.size

abbrev low32 : Nat → Nat := (· % 2 ^ 32)

section Headers

variable {file : File} {off n : Nat} {ph : Proghdr}

theorem headers_succ : file.headers off (n + 1) =
    .ofBytes (file.range off PROGHDR) :: file.headers (off + PROGHDR) n := by
  simp only [File.headers, List.range_succ_eq_map, List.map_cons, List.map_map, Nat.zero_mul, Nat.add_zero]
  refine congrArg _ (List.map_congr_left fun i _ => ?_)
  rw [Function.comp_apply, Nat.succ_mul, Nat.add_comm (i * PROGHDR), Nat.add_assoc]

theorem field_lt {l : List UInt8} {o k : Nat} : field l o k < 256 ^ k := by
  refine (leValue_lt _).trans_le (Nat.pow_le_pow_right (by decide) ?_)
  rw [List.length_take]
  omega

theorem run_loadHeader (im : Image K m₀ F₀ r q m sz allUser what) (hv : ph.vaddr < 2 ^ 64) (hm : ph.memsz < 2 ^ 64) :
    Meets (loadHeader K (r * PGSIZE) file ph sz) m P fun x m' => ∃ sz' what',
      Image K m₀ F₀ r q m' sz' allUser what' ∧
        (x = .error sz' ∨ x = .ok sz' ∧ file.Has low32 ph ∧ what' = file.load low32 what ph) := by
  rw [loadHeader, File.load]
  split
  case isTrue other =>
    exact Meets.pure ⟨sz, what, im, .inr ⟨rfl, fun h => absurd h other, rfl⟩⟩
  case isFalse load =>
    rw [if_pos (not_not.mp load)]
    split
    case isTrue => exact Meets.pure ⟨sz, what, im, .inl rfl⟩
    case isFalse enough =>
      split
      case isTrue => exact Meets.pure ⟨sz, what, im, .inl rfl⟩
      case isFalse noWrap =>
        have sum : (ph.vaddr + ph.memsz) % 2 ^ 64 = ph.vaddr + ph.memsz := by omega
        rw [sum]
        refine Meets.bind (run_uvmalloc_image im) ?_
        rintro _ m₁ (⟨rfl, im₁⟩ | ⟨rfl, im₁⟩)
        · rw [if_pos rfl]
          exact Meets.pure ⟨sz, what, im₁, .inl rfl⟩
        · generalize max : max sz (ph.vaddr + ph.memsz) = sz1 at im₁ ⊢
          split
          case isTrue zero =>
            subst zero
            obtain rfl : sz = 0 := by omega
            exact Meets.pure ⟨0, what, im₁, .inl rfl⟩
          case isFalse =>
            split
            case isTrue => exact Meets.pure ⟨_, what, im₁, .inl rfl⟩
            case isFalse aligned =>
              obtain ⟨v, hv⟩ : ∃ v, ph.vaddr = v * PGSIZE :=
                ⟨ph.vaddr / PGSIZE, (Nat.div_mul_cancel (Nat.dvd_of_mod_eq_zero (not_not.mp aligned))).symm⟩
              have bound := im₁.bound
              have small : ph.off % 2 ^ 32 < 2 ^ 32 := by omega
              have fits : v * PGSIZE + ph.filesz ≤ pages sz1 * PGSIZE := by
                simp only [pages, PGSIZE] at *
                omega
              have narrow : ph.filesz % 2 ^ 32 = ph.filesz := by
                simp only [PGSIZE] at *
                omega
              rw [narrow, hv]
              refine Meets.bind (run_loadseg im₁ fits small) ?_
              rintro x m₂ ⟨what', im₂, rfl | ⟨rfl, has, rfl⟩⟩
              · rw [if_pos (by decide)]
                exact Meets.pure ⟨_, what', im₂, .inl rfl⟩
              · rw [if_neg (by decide)]
                exact Meets.pure ⟨_, _, im₂, .inr ⟨rfl, fun _ => has, rfl⟩⟩

/-- The loop over the program headers. -/
theorem run_loadHeaders {left : Nat} (im : Image K m₀ F₀ r q m sz allUser what) (hoff : off < 2 ^ 32) :
    Meets (loadHeaders K (r * PGSIZE) file left off sz) m P fun x m' => ∃ sz' what',
      Image K m₀ F₀ r q m' sz' allUser what' ∧
        (x = .error sz' ∨ x = .ok sz' ∧ (0 < left → off + left * PROGHDR ≤ file.size) ∧
          (∀ ph ∈ file.headers off left, file.Has low32 ph) ∧
          what' = (file.headers off left).foldl (file.load low32) what) := by
  induction left generalizing off sz what m with
  | zero => exact Meets.pure ⟨sz, what, im, .inr ⟨rfl, by omega, nofun, rfl⟩⟩
  | succ left ih =>
    rw [loadHeaders]
    split
    case isTrue => exact Meets.pure ⟨sz, what, im, .inl rfl⟩
    case isFalse whole =>
      have read := readi_length (by decide) (not_not.mp whole)
      have small := file.size_le
      have next : addU off PROGHDR = off + PROGHDR := Nat.mod_eq_of_lt (by omega)
      have bytes : file.readi off PROGHDR = file.range off PROGHDR := readi_eq read
      rw [bytes, next, headers_succ, List.foldl_cons]
      refine Meets.bind (run_loadHeader im field_lt field_lt) ?_
      rintro x m₁ ⟨sz₁, what₁, im₁, rfl | ⟨rfl, has, rfl⟩⟩
      · exact Meets.pure ⟨sz₁, what₁, im₁, .inl rfl⟩
      · refine (ih im₁ (by omega)).mono ?_
        rintro x m₂ ⟨sz₂, what₂, im₂, failed | ⟨rfl, table, rest, rfl⟩⟩
        · exact ⟨sz₂, what₂, im₂, .inl failed⟩
        · refine ⟨sz₂, _, im₂, .inr ⟨rfl, fun _ => ?_, List.forall_mem_cons.mpr ⟨has, rest⟩, rfl⟩⟩
          by_cases more : 0 < left
          · have := table more
            simp only [PROGHDR] at *
            omega
          · simp only [PROGHDR] at *
            omega

end Headers

/-! ## `stackPages` -/

/-- `wrapping` subtraction that does not wrap. -/
theorem wrapping_run {a b : Nat} (ha : a < 2 ^ 64) (le : b ≤ a) : wrapping a b m = .ok (a - b, m) := by
  have : (a + 2 ^ 64 - b % 2 ^ 64) % 2 ^ 64 = a - b := by omega
  rw [wrapping, this]
  rfl

/-- The flags of a page that only the kernel can use. -/
abbrev kernelFlags : Nat := PTE_W ||| PTE_X ||| PTE_R ||| PTE_V

/-- The guard page is not for the program. -/
abbrev guarded (k : Nat) : Nat → Nat := Function.update allUser k kernelFlags

/-- Clearing `PTE_U` in an entry that has all five flags. -/
theorem and_clear {pte : Nat} (h : pte % 1024 = userFlags) (lt : pte < 2 ^ 64) :
    pte &&& (2 ^ 64 - 1 - PTE_U) = pte / 1024 * 1024 + kernelFlags := by
  have high : (pte &&& (2 ^ 64 - 1 - PTE_U)) / 2 ^ 5 = pte / 2 ^ 5 := by
    have mask : (2 ^ 64 - 1 - PTE_U) / 2 ^ 5 = 2 ^ 59 - 1 := by decide
    rw [Nat.and_div_two_pow, mask, Nat.and_two_pow_sub_one_eq_mod]
    omega
  have low : (pte &&& (2 ^ 64 - 1 - PTE_U)) % 2 ^ 5 = kernelFlags := by
    have mask : (2 ^ 64 - 1 - PTE_U) % 2 ^ 5 = 15 := by decide
    have five : pte % 2 ^ 5 = 31 := by
      have : userFlags = 31 := rfl
      omega
    rw [Nat.and_mod_two_pow, mask, five]
    rfl
  have : kernelFlags = 15 := rfl
  have : userFlags = 31 := rfl
  omega

theorem leaf_clear {pte : Nat} (h : leaf pte = some (p * PGSIZE, userFlags)) (lt : pte < 2 ^ 64) :
    leaf (pte &&& (2 ^ 64 - 1 - PTE_U)) = some (p * PGSIZE, kernelFlags) := by
  obtain ⟨addr, flags, -, -, -⟩ := leaf_flags h
  rw [flags_eq] at flags
  have small : kernelFlags < 1024 := by decide
  rw [and_clear flags.symm lt, addr]
  have valid : (pte / 1024 * 1024 + kernelFlags) % 1024 = kernelFlags := by omega
  rw [leaf, and_valid, flags_eq, valid, if_pos (by decide), pte2pa, pte2pa]
  have same : (pte / 1024 * 1024 + kernelFlags) / 1024 = pte / 1024 := by omega
  rw [same]

/-- Other flags for a page that is mapped. -/
theorem Img.reflag {n f g pa : Nat} (img : Img K m r n t N T) (entry : t k = some (pa, f)) (hg : g ≠ PTE_V)
    (space : Space K m' r N (Function.update t k (some (pa, g)))) :
    Img K m' r n (Function.update t k (some (pa, g))) N T := by
  have back : ∀ j x h, Function.update t k (some (pa, g)) j = some (x, h) → ∃ h', t j = some (x, h') := by
    intro j x h hj
    by_cases same : j = k
    · subst same
      rw [Function.update_self] at hj
      obtain ⟨rfl, -⟩ := some_inj hj
      exact ⟨f, entry⟩
    · rw [Function.update_of_ne same] at hj
      exact ⟨h, hj⟩
  have forth : ∀ j x h, t j = some (x, h) → ∃ h', Function.update t k (some (pa, g)) j = some (x, h') ∧
      (h ≠ PTE_V → h' ≠ PTE_V) := by
    intro j x h hj
    by_cases same : j = k
    · subst same
      obtain ⟨rfl, -⟩ := some_inj (entry.symm.trans hj)
      exact ⟨g, Function.update_self .., fun _ => hg⟩
    · exact ⟨h, by rw [Function.update_of_ne same, hj], id⟩
  refine ⟨space, ?_, ?_, ?_⟩
  · intro j hj
    obtain ⟨x, h, mapped, flags, ram, notN⟩ := img.mapped j hj
    obtain ⟨h', mapped', flags'⟩ := forth j _ h mapped
    exact ⟨x, h', mapped', flags' flags, ram, notN⟩
  · intro i j x h h' hi hj at_i at_j
    obtain ⟨_, at_i'⟩ := back i _ _ at_i
    obtain ⟨_, at_j'⟩ := back j _ _ at_j
    exact img.inj i j x _ _ hi hj at_i' at_j'
  · have same : frames (Function.update t k (some (pa, g))) 0 n = frames t 0 n := by
      ext x
      constructor
      · rintro ⟨j, h, low, high, hj⟩
        obtain ⟨h', hj'⟩ := back j _ _ hj
        exact ⟨j, h', low, high, hj'⟩
      · rintro ⟨j, h, low, high, hj⟩
        obtain ⟨h', hj', -⟩ := forth j _ _ hj
        exact ⟨j, h', low, high, hj'⟩
    rw [same, img.total]

/-- `uvmclear` takes a page from the program. -/
theorem run_uvmclear (im : Image K m₀ F₀ r q m sz allUser what) (hk : k < pages sz) :
    Meets (uvmclear (r * PGSIZE) (k * PGSIZE)) m P fun _ m' => Image K m₀ F₀ r q m' sz (guarded k) what := by
  have bound := im.bound
  obtain ⟨t, N, T, F, im⟩ := im
  obtain ⟨p, entry, -⟩ := im.page k hk
  have low : k * PGSIZE < MAXVA := by
    simp only [MAXVA, PGSIZE]
    omega
  have hn : k < NPAGES := by
    simp only [NPAGES, MAXVA, PGSIZE]
    omega
  refine Meets.bind (run_walk_find.needs fun _ => low) ?_
  rintro _ m ⟨-, rfl, rfl⟩
  rw [base_div]
  cases find : follow below m.entry r (upper k 0) with
  | none =>
    rw [im.img.space.tr_of_not_find find] at entry
    cases entry
  | some x =>
    have table : x ∈ N := im.img.space.mem le_rfl find
    have leaf := (im.img.space.tr_of_find hn find).symm.trans entry
    refine Meets.step load_pteOf (Meets.of_ok store64_run ?_)
    have lt : m.entry x (ix 0 k) &&& (2 ^ 64 - 1 - PTE_U) < 2 ^ 64 := Nat.and_le_left.trans_lt entry_lt
    have space := im.img.space.put hn find lt
    rw [leaf_clear leaf entry_lt] at space
    have other : Only {x} m (m.put64 (pteOf x k) (m.entry x (ix 0 k) &&& (2 ^ 64 - 1 - PTE_U))) := only_put64
    have high : k ≠ NPAGES - 1 ∧ k ≠ NPAGES - 2 := by
      simp only [NPAGES, MAXVA, PGSIZE]
      omega
    refine ⟨_, N, T, F, im.img.reflag entry (by decide) space, im.free.frame rfl fun y hy => other y ?_, im.apart,
      im.total, im.only.trans fun y hy => other y ?_, ?_, ⟨?_, ?_⟩, ?_, im.beyond⟩
    · rintro rfl
      exact Set.disjoint_left.mp im.apart (im.img.tables_sub table) hy
    · rintro rfl
      exact hy (im.sub.1 (im.img.tables_sub table))
    · intro j above below
      rw [Function.update_of_ne (by omega)]
      exact im.gap j above below
    · rw [Function.update_of_ne high.1.symm]
      exact im.top.trampoline
    · rw [Function.update_of_ne high.2.symm]
      exact im.top.trapframe
    · intro j hj
      obtain ⟨y, mapped, bytes⟩ := im.page j hj
      refine ⟨y, ?_, fun o ho => ?_⟩
      · by_cases same : j = k
        · subst same
          obtain ⟨e, -⟩ := some_inj (entry.symm.trans mapped)
          rw [Function.update_self, guarded, Function.update_self, e]
        · rw [Function.update_of_ne same, guarded, Function.update_of_ne same, mapped]
      · have differ : y ≠ x := fun e => im.frame_apart hj mapped (.inl (e ▸ table))
        rw [other y differ, bytes o ho]

/-- An image has whole pages. -/
theorem Image.round (im : Image K m₀ F₀ r q m sz flags what) :
    Image K m₀ F₀ r q m (pages sz * PGSIZE) flags what := by
  obtain ⟨t, N, T, F, im⟩ := im
  have same : pages (pages sz * PGSIZE) = pages sz := pages_base
  refine ⟨t, N, T, F, ?_, im.free, im.apart, im.total, im.only, ?_, im.top, ?_, ?_⟩
  all_goals rw [same]
  · exact im.img
  · exact im.gap
  · exact im.page
  · exact im.beyond

/-- `stackPages` adds a page that the program cannot use and one for the stack. -/
theorem run_stackPages (im : Image K m₀ F₀ r q m sz allUser what) :
    Meets (stackPages K (r * PGSIZE) sz) m P fun x m' =>
      (∃ sz', x = .error sz' ∧ Image K m₀ F₀ r q m' sz' allUser what) ∨
      x = .ok ((pages sz + 2) * PGSIZE) ∧
        Image K m₀ F₀ r q m' ((pages sz + 2) * PGSIZE) (guarded (pages sz)) what := by
  have bound := im.bound
  have small : sz + PGSIZE ≤ 2 ^ 64 := by
    simp only [pages, PGSIZE] at bound ⊢
    omega
  have sum : (pages sz * PGSIZE + 2 * PGSIZE) % 2 ^ 64 = (pages sz + 2) * PGSIZE := by
    simp only [PGSIZE]
    omega
  have more : max (pages sz * PGSIZE) ((pages sz + 2) * PGSIZE) = (pages sz + 2) * PGSIZE := by
    simp only [PGSIZE]
    omega
  have guard : (pages sz + 2) * PGSIZE - 2 * PGSIZE = pages sz * PGSIZE := by
    rw [← Nat.sub_mul, Nat.add_sub_cancel]
  rw [stackPages, pgroundup_eq small, sum]
  refine Meets.bind (run_uvmalloc_image im.round) ?_
  rw [more]
  rintro _ m₁ (⟨rfl, im₁⟩ | ⟨rfl, im₁⟩)
  · rw [if_pos rfl]
    exact Meets.pure (.inl ⟨_, rfl, im₁⟩)
  · have pos : (pages sz + 2) * PGSIZE ≠ 0 := by
      simp only [PGSIZE]
      omega
    have lt : (pages sz + 2) * PGSIZE < 2 ^ 64 := by
      simp only [PGSIZE]
      omega
    rw [if_neg pos]
    refine Meets.step (wrapping_run lt (Nat.mul_le_mul_right _ (by omega))) ?_
    rw [guard]
    refine Meets.bind (run_uvmclear im₁ ?_) ?_
    · rw [pages_base]
      omega
    · exact fun _ m₂ im₂ => Meets.pure (.inr ⟨rfl, im₂⟩)

end Xv6.Vm
