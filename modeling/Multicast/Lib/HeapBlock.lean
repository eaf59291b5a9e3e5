import Mathlib.Data.List.Basic
import Mathlib.Data.List.TakeDrop

/-!
# Blocks of a C heap

A block is a list of cells; a cell that was never written has no value. What an
allocator hands out for a request of `m` bytes is a block of at least `m` cells:
the C standard promises `m`, an implementation may round up, and an access past
the request but inside the block is undefined although nothing is lost. The
rounding is the parameter of the theory, so that a statement can be made for the
standard's allocator, for a rounding one, or for all of them.

## Main definitions

* `HeapBlock.Allocator` — the size of the block handed out for a request
* `HeapBlock.Allocator.exact` — the allocator that hands out what was asked for
* `HeapBlock.Pointer` — null, a released block, or a block with its cells
* `Pointer.realloc`, `Pointer.free`, `Pointer.memcpy`, `Pointer.read`
* `Pointer.Holds` — the bytes that can be read

## Main results

* `Pointer.room_realloc` — the size of a reallocated block
* `Pointer.read_memcpy_fresh` — what is copied to the start of a new block is
  what is read from it
* `Pointer.read_memcpy_realloc_exact` — so is what fills a block that was resized for it
* `Pointer.read_memcpyFields` — so are fields that were copied one behind the other
* `Pointer.read_eq_none_of_room_lt` — nothing past the block can be read
* `Pointer.holds_memcpy_fresh` — nor anything past what was copied
-/

set_option autoImplicit false

namespace HeapBlock

/-- The contract of `malloc` and `realloc` on sizes: a request of `m` bytes gets
a block in which at least `m` can be used. -/
structure Allocator where
  usable : ℕ → ℕ
  le_usable : ∀ m, m ≤ usable m

/-- The allocator that rounds nothing up. -/
def Allocator.exact : Allocator := ⟨id, fun m => Nat.le_refl m⟩

/-- A pointer into the heap: `NULL`, a block that was released while the pointer
was kept, or a block. -/
inductive Pointer (β : Type*) where
  | null
  | freed
  | block (cells : List (Option β))
deriving DecidableEq

variable {β : Type*}

/-! ### Cells -/

/-- The cells kept when a block is resized to `m` cells: the first ones, then
cells without a value. -/
def resize (cells : List (Option β)) (m : ℕ) : List (Option β) :=
  cells.take m ++ List.replicate (m - cells.length) none

/-- The cells after `bytes` were copied to offset `off`. What falls outside the
block is not stored. -/
def overwrite (cells : List (Option β)) (off : ℕ) (bytes : List β) : List (Option β) :=
  cells.take off ++ (bytes.map some).take (cells.length - off) ++ cells.drop (off + bytes.length)

@[simp] theorem length_resize (cells : List (Option β)) (m : ℕ) :
    (resize cells m).length = m := by
  simp only [resize, List.length_append, List.length_take, List.length_replicate]
  omega

@[simp] theorem length_overwrite (cells : List (Option β)) (off : ℕ) (bytes : List β) :
    (overwrite cells off bytes).length = cells.length := by
  simp only [overwrite, List.length_append, List.length_take, List.length_map, List.length_drop]
  omega

/-- Copying into the room behind what was copied before extends it. -/
theorem overwrite_append (done bytes : List β) (back : List (Option β))
    (h : bytes.length ≤ back.length) :
    overwrite (done.map some ++ back) done.length bytes =
      (done ++ bytes).map some ++ back.drop bytes.length := by
  have hlen : (done.map some ++ back).length - done.length = back.length := by simp
  rw [overwrite, hlen, List.take_left' (by simp), List.take_of_length_le (by simpa using h),
    ← List.drop_drop, List.drop_left' (by simp), List.map_append]

theorem overwrite_append_replicate (done bytes : List β) (k : ℕ) (hk : bytes.length ≤ k) :
    overwrite (done.map some ++ List.replicate k none) done.length bytes =
      (done ++ bytes).map some ++ List.replicate (k - bytes.length) none := by
  rw [overwrite_append done bytes _ (by simpa using hk), List.drop_replicate]

/-- A block that keeps its copied cells when it is resized. -/
theorem resize_append_replicate (done : List β) (k m : ℕ) (hm : done.length ≤ m) :
    resize (done.map some ++ List.replicate k none) m =
      done.map some ++ List.replicate (m - done.length) none := by
  rw [resize, List.take_append, List.take_of_length_le (by simpa using hm), List.append_assoc]
  congr 1
  -- cells without a value, whether they were kept or are new
  simp only [List.length_map, List.take_replicate, List.length_append, List.length_replicate,
    List.replicate_append_replicate]
  congr 1
  omega

namespace Pointer

/-! ### Operations -/

/-- The cells a pointer gives access to. -/
def cells : Pointer β → List (Option β)
  | null | freed => []
  | block cs => cs

/-- The number of cells a pointer gives access to. -/
def room (p : Pointer β) : ℕ := p.cells.length

/-- `realloc (p, m)`. With a null pointer it allocates; with `m = 0` and a block it
releases the block and answers `NULL`; otherwise it keeps the cells that fit.
Reallocating a released block is undefined: what is answered there stands for nothing, and a model
that can come to it has to exclude it, as `HeapOp.pointer` and `GotoLoop.guarded` allow. -/
def realloc (al : Allocator) (p : Pointer β) (m : ℕ) : Pointer β :=
  match p with
  | null | freed => block (List.replicate (al.usable m) none)
  | block cs => if m = 0 then null else block (resize cs (al.usable m))

/-- `free (p)`; the variable that held the pointer is left as it is. -/
def free : Pointer β → Pointer β
  | null => null
  | freed | block _ => freed

/-- `memcpy (p + off, bytes, |bytes|)`. -/
def memcpy (p : Pointer β) (off : ℕ) (bytes : List β) : Pointer β :=
  match p with
  | null => null
  | freed => freed
  | block cs => block (overwrite cs off bytes)

/-- Fields that are copied one behind the other, the first one to offset `off`. -/
def memcpyFields (p : Pointer β) (off : ℕ) : List (List β) → Pointer β
  | [] => p
  | field :: fields => (p.memcpy off field).memcpyFields (off + field.length) fields

/-- The `n` bytes at offset `off`: none if the range leaves the block or reaches a
cell that was never written. -/
def read (p : Pointer β) (off n : ℕ) : Option (List β) :=
  if off + n ≤ p.room then ((p.cells.drop off).take n).mapM id else none

@[simp] theorem cells_block (cs : List (Option β)) : (block cs).cells = cs := rfl

@[simp] theorem room_block (cs : List (Option β)) : (block cs).room = cs.length := rfl

@[simp] theorem room_memcpy (p : Pointer β) (off : ℕ) (bytes : List β) :
    (p.memcpy off bytes).room = p.room := by
  cases p <;> simp [memcpy, room, cells]

/-- The size of a reallocated block, whatever the pointer was. -/
theorem room_realloc (al : Allocator) (p : Pointer β) {m : ℕ} (hm : m ≠ 0) :
    (p.realloc al m).room = al.usable m := by
  cases p <;> simp [realloc, hm, room]

theorem room_realloc_exact (p : Pointer β) (m : ℕ) : (p.realloc .exact m).room = m := by
  rcases Nat.eq_zero_or_pos m with rfl | hm
  · cases p <;> rfl
  · exact room_realloc .exact p (Nat.ne_of_gt hm)

theorem realloc_null (al : Allocator) (m : ℕ) :
    (null : Pointer β).realloc al m = block (List.replicate (al.usable m) none) := rfl

/-- A new block after the whole request was copied to its start. -/
theorem memcpy_realloc_null (al : Allocator) (bytes : List β) :
    ((null : Pointer β).realloc al bytes.length).memcpy 0 bytes =
      block (bytes.map some ++
        List.replicate (al.usable bytes.length - bytes.length) none) := by
  have h := overwrite_append_replicate [] bytes _ (al.le_usable bytes.length)
  simpa [realloc, memcpy] using h

/-- A block that was filled, then resized, then filled behind what it held, when the new
size leaves room. -/
theorem memcpy_realloc_append (al : Allocator) (done bytes : List β) {m : ℕ} (hm : m ≠ 0)
    (hroom : done.length + bytes.length ≤ al.usable m) :
    ((((null : Pointer β).realloc al done.length).memcpy 0 done).realloc al m).memcpy done.length
      bytes = block ((done ++ bytes).map some ++
        List.replicate (al.usable m - done.length - bytes.length) none) := by
  rw [memcpy_realloc_null, realloc, if_neg hm, resize_append_replicate _ _ _ (by omega), memcpy,
    overwrite_append_replicate _ _ _ (by omega)]

/-! ### Reading -/

theorem read_eq_none_of_room_lt {p : Pointer β} {off n : ℕ} (h : p.room < off + n) :
    p.read off n = none := by
  rw [read, if_neg (by omega)]

private theorem mapM_id_map_some (xs : List β) : (xs.map some).mapM id = some xs := by
  induction xs with
  | nil => rfl
  | cons x xs ih => simp [ih]

/-- A range that was copied is read back. -/
theorem read_block_map_some (front bytes : List β) (back : List (Option β)) :
    (block (front.map some ++ (bytes.map some ++ back))).read front.length bytes.length =
      some bytes := by
  rw [read, if_pos (by simp), cells_block, List.drop_left' (by simp),
    List.take_left' (by simp), mapM_id_map_some]

private theorem memcpyFields_block (done : List β) (back : List (Option β))
    (fields : List (List β)) (h : fields.flatten.length ≤ back.length) :
    (block (done.map some ++ back)).memcpyFields done.length fields =
      block ((done ++ fields.flatten).map some ++ back.drop fields.flatten.length) := by
  induction fields generalizing done back with
  | nil => simp [memcpyFields]
  | cons field fields ih =>
    rw [List.flatten_cons, List.length_append] at h
    have hlength : (done ++ field).length = done.length + field.length := List.length_append
    rw [memcpyFields, memcpy, overwrite_append done field back (by omega), ← hlength,
      ih (done ++ field) _ (by rw [List.length_drop]; omega), List.drop_drop, List.append_assoc,
      List.flatten_cons, List.length_append]

/-- Fields that are copied one behind the other to a block with room for them are read back
together. -/
theorem read_memcpyFields (cells : List (Option β)) (fields : List (List β))
    (h : fields.flatten.length ≤ cells.length) :
    ((block cells).memcpyFields 0 fields).read 0 fields.flatten.length = some fields.flatten := by
  have hblock := memcpyFields_block [] cells fields h
  rw [List.map_nil, List.nil_append, List.length_nil, List.nil_append] at hblock
  rw [hblock]
  exact read_block_map_some [] fields.flatten _

/-- What is copied to the start of a new block is what is read from it, in every range. -/
theorem read_memcpy_fresh (al : Allocator) (bytes : List β) {off n : ℕ}
    (h : off + n ≤ bytes.length) :
    (((null : Pointer β).realloc al bytes.length).memcpy 0 bytes).read off n =
      some ((bytes.drop off).take n) := by
  have hsplit : bytes =
      bytes.take off ++ ((bytes.drop off).take n ++ (bytes.drop off).drop n) := by
    rw [List.take_append_drop, List.take_append_drop]
  have hfront : (bytes.take off).length = off := by
    rw [List.length_take]
    omega
  have hmiddle : ((bytes.drop off).take n).length = n := by
    rw [List.length_take, List.length_drop]
    omega
  -- the cells behind the range are the rest of the bytes and those that were not written
  have hread := read_block_map_some (bytes.take off) ((bytes.drop off).take n)
    (((bytes.drop off).drop n).map some ++
      List.replicate (al.usable bytes.length - bytes.length) none)
  rw [hfront, hmiddle, ← List.append_assoc, ← List.append_assoc, ← List.map_append,
    ← List.map_append, List.append_assoc, ← hsplit] at hread
  rw [memcpy_realloc_null]
  exact hread

theorem read_zero (p : Pointer β) : p.read 0 0 = some [] := by
  rw [read, if_pos (Nat.zero_le _), List.take_zero]
  rfl

private theorem eq_map_some_of_mapM_id {cs : List (Option β)} {bytes : List β}
    (h : cs.mapM id = some bytes) : cs = bytes.map some := by
  induction cs generalizing bytes with
  | nil =>
    obtain rfl := Option.some.inj h
    rfl
  | cons c cs ih =>
    rw [List.mapM_cons] at h
    obtain ⟨b, rfl, hrest⟩ := Option.bind_eq_some_iff.mp h
    obtain ⟨bytes, hbytes, hcons⟩ := Option.bind_eq_some_iff.mp hrest
    obtain rfl := Option.some.inj hcons
    rw [ih hbytes, List.map_cons]

/-- As many bytes are read as were asked for. -/
theorem length_of_read {p : Pointer β} {off n : ℕ} {bytes : List β}
    (h : p.read off n = some bytes) : bytes.length = n := by
  rw [read] at h
  split at h
  next hroom =>
    have hcells := congrArg List.length (eq_map_some_of_mapM_id h)
    rw [List.length_take, List.length_drop, List.length_map] at hcells
    rw [room] at hroom
    omega
  next => cases h

/-- A block that was resized to the bytes that are then copied to its start holds these,
whatever it held before. -/
theorem read_memcpy_realloc_exact (p : Pointer β) (bytes : List β) :
    ((p.realloc .exact bytes.length).memcpy 0 bytes).read 0 bytes.length = some bytes := by
  rcases Nat.eq_zero_or_pos bytes.length with hempty | hpos
  · rw [List.eq_nil_of_length_eq_zero hempty]
    exact read_zero _
  · have hroom := room_realloc_exact p bytes.length
    cases hblock : p.realloc .exact bytes.length with
    | null | freed =>
      rw [hblock] at hroom
      change 0 = bytes.length at hroom
      omega
    | block cells =>
      rw [hblock, room_block] at hroom
      -- all cells are written
      have hcells : overwrite cells 0 bytes = bytes.map some ++ [] := by
        rw [overwrite, List.take_zero, List.nil_append, Nat.zero_add, hroom,
          List.drop_of_length_le (by omega), List.take_of_length_le (by simp)]
      rw [memcpy, hcells]
      exact read_block_map_some [] bytes []

private theorem mapM_id_of_none_mem {cs : List (Option β)} (h : none ∈ cs) :
    cs.mapM id = none := by
  induction cs with
  | nil => simp at h
  | cons c cs ih =>
    cases c with
    | none => simp
    | some x =>
      have hcs : none ∈ cs := by simpa using h
      simp [ih hcs]

/-- A cell that was never written makes the read fail. -/
theorem read_eq_none_of_none_mem {p : Pointer β} {off n : ℕ}
    (h : none ∈ (p.cells.drop off).take n) : p.read off n = none := by
  rw [read]
  split
  · exact mapM_id_of_none_mem h
  · rfl

/-- The pointer gives access to these bytes and to no others: what is read is a range of
them, and a range that leaves them cannot be read. -/
def Holds (p : Pointer β) (bytes : List β) : Prop :=
  ∀ off n, 0 < n →
    p.read off n = if off + n ≤ bytes.length then some ((bytes.drop off).take n) else none

/-- A new block holds what was copied to it, however large it is. -/
theorem holds_memcpy_fresh (al : Allocator) (bytes : List β) :
    (((null : Pointer β).realloc al bytes.length).memcpy 0 bytes).Holds bytes := by
  intro off n hn
  by_cases h : off + n ≤ bytes.length
  · rw [if_pos h, read_memcpy_fresh al bytes h]
  rw [if_neg h, memcpy_realloc_null]
  have hle := al.le_usable bytes.length
  rcases Nat.lt_or_ge (al.usable bytes.length) (off + n) with hroom | hroom
  · -- the block ends before the range does
    apply read_eq_none_of_room_lt
    simp only [room_block, List.length_append, List.length_map, List.length_replicate]
    omega
  · -- the range reaches a cell without a value
    apply read_eq_none_of_none_mem
    rw [cells_block, List.mem_iff_getElem?]
    refine ⟨bytes.length - off, ?_⟩
    rw [List.getElem?_take_of_lt (by omega), List.getElem?_drop,
      List.getElem?_append_right (by rw [List.length_map]; omega),
      List.getElem?_replicate_of_lt (by rw [List.length_map]; omega)]

/-- The block is as large as what it holds. -/
theorem Holds.length_le_room {p : Pointer β} {bytes : List β} (h : p.Holds bytes) :
    bytes.length ≤ p.room := by
  by_contra hroom
  have hread := h 0 bytes.length (by omega)
  rw [read_eq_none_of_room_lt (by omega), if_pos (by omega)] at hread
  cases hread

/-- A new block cannot be read past what was copied to it. -/
theorem read_memcpy_fresh_eq_none (al : Allocator) {bytes : List β} {n : ℕ}
    (h : bytes.length < n) :
    (((null : Pointer β).realloc al bytes.length).memcpy 0 bytes).read 0 n = none := by
  rw [holds_memcpy_fresh al bytes 0 n (by omega), if_neg (by omega)]

end Pointer

end HeapBlock
