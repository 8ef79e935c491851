import Corgi.Words

/-!
# The three-level bitmap allocator

`AllocatorV3` of `internal/fs/allocator_v3.go`. `l0` has one bit a block, 1 for free.
`l1` has one 2-bit entry for each slotset of 8 words of `l0` (512 blocks), and `l2` one
for each slotset of 8 words of `l1` (131072 blocks) : `FREE`, `FULL` or `PARTIAL`.

The constants are written out : `v3BitsPerSlot = 64`, `v3SlotsPerSlotset = 8`,
`v3L1EntriesPerSlot = 32`, `v3L1EntryWidth = 2`, `v3L1EntryMask = 3`,
`v3BitsPerSlotset = 512`, `v3BitsPerL1Slotset = 131072`. Counters and positions that the
code keeps nonnegative are `ℕ`; arguments that a caller may choose freely are `ℤ`, and
the one sum that can overflow is wrapped (`wrap64`). A counting loop is a fold over its
range, a loop with an early return a `findSome?`.

Each method returns the allocator after the call : every method holds `a.mu`
throughout, so a call is one step.
-/

namespace Corgi

/-- An extent of `size` units from `offset`, units being blocks or bytes. -/
structure Result where
  offset : ℤ
  size : ℤ
  deriving DecidableEq, Repr

/-- The value an `int64` computation leaves for the integer `x`. -/
def wrap64 (x : ℤ) : ℤ :=
  (x + 2 ^ 63) % 2 ^ 64 - 2 ^ 63

theorem wrap64_of_lt {x : ℤ} (hpos : 0 ≤ x) (hlt : x < 2 ^ 63) : wrap64 x = x := by
  rw [wrap64]
  omega

/-- The operation `validateRangeV3` names in its error. -/
inductive RangeOp
  | release
  | initAllocated
  | initFree
  deriving DecidableEq, Repr

/-- The name of the operation in the errors of `validateRangeV3`. -/
def RangeOp.text : RangeOp → String
  | release => "release"
  | initAllocated => "InitAllocated"
  | initFree => "InitFree"

/-- The errors of the allocator's methods. -/
inductive AllocError
  | invalidSize (want : ℤ)
  | notEnoughSpace (want available : ℤ)
  | bitmapInconsistent (want left available : ℤ)
  | invalidExtent (op : RangeOp) (offset size total : ℤ)
  | notFullyAllocated (offset size : ℤ)
  | extentsOverlap (r s : Result)
  | belowZero
  | exceedsTotal
  deriving DecidableEq, Repr

/-- The text of an error. -/
def AllocError.message : AllocError → String
  | invalidSize want => s!"invalid allocate size={want}"
  | notEnoughSpace want available => s!"not enough space: want={want} available={available}"
  | bitmapInconsistent want left available =>
    s!"bitmap inconsistent: want={want} left={left} available={available}"
  | invalidExtent op offset size total =>
    s!"invalid {op.text} extent offset={offset} size={size} total={total}"
  | notFullyAllocated offset size =>
    s!"release extent not fully allocated: offset={offset} size={size}"
  | extentsOverlap r s =>
    s!"release extents overlap: \x7bOffset:{r.offset} Size:{r.size}\x7d " ++
      s!"\x7bOffset:{s.offset} Size:{s.size}\x7d"
  | belowZero => "available below zero after InitAllocated"
  | exceedsTotal => "available exceeds total after InitFree"

/-- The allocator's state. -/
structure AllocatorV3 where
  /-- Number of blocks. -/
  total : ℕ
  /-- Number of free blocks. -/
  available : ℤ
  /-- One bit a block, 1 for free. -/
  l0 : List Word
  /-- One entry a slotset of `l0`. -/
  l1 : List Word
  /-- One entry a slotset of `l1`. -/
  l2 : List Word
  /-- Where the last allocation ended. -/
  lastPos : ℕ
  deriving DecidableEq, Repr

/-- The bits of word `wordIndex` in `[offset, stop)`. -/
def v3RangeMask (offset stop wordIndex : ℕ) : Word :=
  let wordStart := wordIndex * 64
  let wordEnd := wordStart + 64
  let start := max offset wordStart
  let e := min stop wordEnd
  let width : ℤ := e - start
  let shift := start - wordStart
  if width = 0 then 0#64
  -- `uint` of a negative width is at least 64.
  else if width < 0 ∨ 64 ≤ width then ~~~0#64
  else ((1#64 <<< width.toNat) - 1) <<< shift

/-- The 2-bit code of a group that is all free, all allocated, or mixed : `FREE`,
`FULL`, `PARTIAL`. -/
def summaryEntry (allFree allAlloc : Bool) : Word :=
  if allFree then 3 else if allAlloc then 0 else 1

/-- Add `r` to `results`, growing the last extent if `r` starts where it ends. -/
def appendResult (results : List Result) (r : Result) : List Result :=
  if r.size ≤ 0 then results
  else match results.getLast? with
    | none => results ++ [r]
    | some last =>
      if last.offset + last.size = r.offset then
        results.dropLast ++ [⟨last.offset, last.size + r.size⟩]
      else results ++ [r]

/-- Two extents have a block in common. The ends are `int64` sums. -/
def extentsOverlap (a b : Result) : Bool :=
  a.offset < wrap64 (b.offset + b.size) && b.offset < wrap64 (a.offset + a.size)

namespace AllocatorV3

/-! ## Marking -/

/-- The bits of word `index` that stand for blocks. -/
def v3ValidWordMask (a : AllocatorV3) (index : ℕ) : Word :=
  if index + 1 < a.l0.length then ~~~0#64
  else if a.total % 64 = 0 then ~~~0#64
  else (1#64 <<< (a.total % 64)) - 1

/-- Recompute the `l1` entry of the slotset of word `l0SlotIdx`. -/
def updateL1ForL0Slot (a : AllocatorV3) (l0SlotIdx : ℕ) : AllocatorV3 :=
  let slotsetIdx := l0SlotIdx / 8
  let l1SlotIdx := slotsetIdx / 32
  let l1BitPos := slotsetIdx % 32
  if a.l1.length ≤ l1SlotIdx then a
  else
    let ssStart := slotsetIdx * 8
    let ssEnd := min (ssStart + 8) a.l0.length
    let slots := List.range' ssStart (ssEnd - ssStart)
    let allFree := slots.all fun k =>
      a.l0.getD k 0#64 &&& a.v3ValidWordMask k == a.v3ValidWordMask k
    let allAlloc := slots.all fun k => a.l0.getD k 0#64 &&& a.v3ValidWordMask k == 0#64
    let entry := summaryEntry allFree allAlloc
    { a with l1 := a.l1.set l1SlotIdx (setEntry (a.l1.getD l1SlotIdx 0#64) l1BitPos entry) }

/-- Recompute the `l2` entry of the slotset of `l1` word `l1SlotIdx`. -/
def updateL2ForL1Slot (a : AllocatorV3) (l1SlotIdx : ℕ) : AllocatorV3 :=
  let l1SlotsetIdx := l1SlotIdx / 8
  let l2SlotIdx := l1SlotsetIdx / 32
  let l2BitPos := l1SlotsetIdx % 32
  if a.l2.length ≤ l2SlotIdx then a
  else
    let ssStart := l1SlotsetIdx * 8
    let ssEnd := min (ssStart + 8) a.l1.length
    let slots := List.range' ssStart (ssEnd - ssStart)
    let allFree := slots.all fun k => a.l1.getD k 0#64 == ~~~0#64
    let allAlloc := slots.all fun k => a.l1.getD k 0#64 == 0#64
    let entry := summaryEntry allFree allAlloc
    { a with l2 := a.l2.set l2SlotIdx (setEntry (a.l2.getD l2SlotIdx 0#64) l2BitPos entry) }

/-- The marking loop's body on word `i` : the words so far and the flipped bits so far. -/
def markWord (a : AllocatorV3) (offset stop : ℕ) (free : Bool) (st : List Word × ℕ) (i : ℕ) :
    List Word × ℕ :=
  let mask := v3RangeMask offset stop i &&& a.v3ValidWordMask i
  let old := st.1.getD i 0#64
  if free then (st.1.set i (old ||| mask), st.2 + onesCount64 (~~~old &&& mask))
  else (st.1.set i (old &&& ~~~mask), st.2 + onesCount64 (old &&& mask))

/-- Set the bits of `[offset, offset + size)` to `free` and refresh both summaries. Also
returns the number of flipped bits. -/
def markRangeLocked (a : AllocatorV3) (offset size : ℕ) (free : Bool) : AllocatorV3 × ℕ :=
  if size = 0 then (a, 0)
  else
    let stop := offset + size
    let startWord := offset / 64
    let endWord := (stop - 1) / 64
    let words := List.range' startWord (min (endWord + 1) a.l0.length - startWord)
    let (l0, changed) := words.foldl (a.markWord offset stop free) (a.l0, 0)
    let a := { a with l0 }
    let startSlotset := startWord / 8
    let endSlotset := endWord / 8
    let slotsets := List.range' startSlotset (endSlotset + 1 - startSlotset)
    let a := slotsets.foldl (fun a ss => a.updateL1ForL0Slot (ss * 8)) a
    let startL1Slotset := startSlotset / 32 / 8
    let endL1Slotset := endSlotset / 32 / 8
    let l1Sets := List.range' startL1Slotset (endL1Slotset + 1 - startL1Slotset)
    -- The loop breaks at the first `l1Set` past the end of `l1`.
    let l1Sets := l1Sets.takeWhile fun l1Set => l1Set * 8 < a.l1.length
    (l1Sets.foldl (fun a l1Set => a.updateL2ForL1Slot (l1Set * 8)) a, changed)

/-- An allocator of `blocks` free blocks. -/
def newAllocatorV3 (blocks : ℕ) : AllocatorV3 :=
  if blocks = 0 then ⟨0, 0, [], [], [], 0⟩
  else
    let l0SlotCount := (blocks + 63) / 64
    let l0 := List.replicate l0SlotCount (~~~0#64)
    let l0 := if blocks % 64 = 0 then l0
      else l0.set (l0SlotCount - 1) ((1#64 <<< (blocks % 64)) - 1)
    let l0Slotsets := (l0SlotCount + 7) / 8
    let l1SlotCount := max ((l0Slotsets + 31) / 32) 1
    let l1 := List.replicate l1SlotCount 0#64
    let l1Slotsets := (l1.length + 7) / 8
    let l2SlotCount := max ((l1Slotsets + 31) / 32) 1
    let l2 := List.replicate l2SlotCount 0#64
    let a : AllocatorV3 := ⟨blocks, 0, l0, l1, l2, 0⟩
    let a := (List.range l0SlotCount).foldl updateL1ForL0Slot a
    let a := (List.range a.l1.length).foldl updateL2ForL1Slot a
    { a with available := blocks }

/-! ## Searching -/

/-- Free blocks from bit `b` of the first of the words `ws` on, at most `cap` : the
loop that extends a run. -/
def extendRun : List Word → ℕ → ℕ → ℕ
  | [], _, _ => 0
  | w :: ws, b, cap =>
    if cap = 0 then 0
    else
      let avail := 64 - b
      let n := min (min (trailingZeros64 (~~~(w >>> b))) avail) cap
      if n < avail ∨ cap - n = 0 then n else n + extendRun ws 0 (cap - n)

/-- The first free bit of `l0` from `fromBit` on, looked for up to the word of
`toBit - 1`. -/
def firstFreeBit (a : AllocatorV3) (fromBit toBit : ℕ) : Option ℕ :=
  let startWord := fromBit / 64
  let bitOff := fromBit % 64
  let word := a.l0.getD startWord 0#64 >>> bitOff
  if word ≠ 0#64 then some (startWord * 64 + bitOff + trailingZeros64 word)
  else
    let endWord := (toBit - 1) / 64
    (List.range' (startWord + 1) (endWord - startWord)).findSome? fun w =>
      if a.l0.getD w 0#64 ≠ 0#64 then some (w * 64 + trailingZeros64 (a.l0.getD w 0#64)) else none

/-- The first run of free blocks that starts in `[fromBit, toBit)`, cut at `limit`
blocks. -/
def scanL0ForFreeRunLimited (a : AllocatorV3) (fromBit toBit limit : ℕ) : ℕ × ℕ :=
  if toBit ≤ fromBit ∨ a.total ≤ fromBit ∨ limit = 0 then (0, 0)
  else
    let toBit := min toBit a.total
    match a.firstFreeBit fromBit toBit with
    | none => (0, 0)
    | some firstBit =>
      if toBit ≤ firstBit ∨ a.total ≤ firstBit then (0, 0)
      else
        let runEnd := firstBit + extendRun (a.l0.drop (firstBit / 64)) (firstBit % 64) limit
        let runEnd := min runEnd a.total
        if runEnd ≤ firstBit then (0, 0) else (firstBit, runEnd - firstBit)

/-- A free run that fills its group `[groupStart, groupEnd)` from `fromBlock` on : the
`FREE` fast path. -/
def freeGroupRun (fromBlock limit groupStart groupEnd : ℕ) : Option (ℕ × ℕ) :=
  let actualStart := max fromBlock groupStart
  let sz := min limit (groupEnd - actualStart)
  if 0 < sz then some (actualStart, sz) else none

/-- The search inside entry `bitPos` of `l1` word `li`. -/
def searchL1Entry (a : AllocatorV3) (fromBlock limit li bitPos : ℕ) : Option (ℕ × ℕ) :=
  let l1Entry := entryOf (a.l1.getD li 0#64) bitPos
  if l1Entry = 0 then none
  else
    let l0SetGlobal := li * 32 + bitPos
    let l0SlotStart := l0SetGlobal * 8
    let slotStartBlock := l0SlotStart * 64
    let slotEndBlock := min (slotStartBlock + 512) a.total
    if l1Entry = 3 then freeGroupRun fromBlock limit slotStartBlock slotEndBlock
    else
      let l0SlotEnd := min (l0SlotStart + 8) a.l0.length
      let bFrom := max fromBlock slotStartBlock
      let run := a.scanL0ForFreeRunLimited bFrom (l0SlotEnd * 64) limit
      if 0 < run.2 then some run else none

/-- The search inside entry `curL2Bit` of `l2` word `curL2Slot`. The entry that holds
`fromBlock` is entered at the `l1` entry that holds it. -/
def searchL2Entry (a : AllocatorV3) (fromBlock limit curL2Slot curL2Bit : ℕ) :
    Option (ℕ × ℕ) :=
  let l0SetIdx := fromBlock / 64 / 8
  let l1SlotIdx := l0SetIdx / 32
  let l1SetIdx := l1SlotIdx / 8
  let l2Entry := entryOf (a.l2.getD curL2Slot 0#64) curL2Bit
  if l2Entry = 0 then none
  else
    let l1SetGlobal := curL2Slot * 32 + curL2Bit
    let l2EntryStart := l1SetGlobal * 131072
    let l2EntryEnd := min (l2EntryStart + 131072) a.total
    if l2Entry = 3 then freeGroupRun fromBlock limit l2EntryStart l2EntryEnd
    else
      let l1SlotStart := l1SetGlobal * 8
      let l1SlotEnd := min (l1SlotStart + 8) a.l1.length
      let first := curL2Slot = l1SetIdx / 32 ∧ curL2Bit = l1SetIdx % 32
      let startL1Slot := if first then l1SlotIdx else l1SlotStart
      let initL1Bit := if first then l0SetIdx % 32 else 0
      (List.range' startL1Slot (l1SlotEnd - startL1Slot)).findSome? fun li =>
        let startL1Bit := if li = startL1Slot then initL1Bit else 0
        (List.range' startL1Bit (32 - startL1Bit)).findSome? fun bitPos =>
          a.searchL1Entry fromBlock limit li bitPos

/-- The first free run from `fromBlock` on, at most `limit` blocks, found through the
summaries. -/
def nextFreeRunFromLocked (a : AllocatorV3) (fromBlock limit : ℕ) : ℕ × ℕ :=
  if a.total ≤ fromBlock ∨ a.l0.length = 0 then (0, 0)
  else
    let l1SetIdx := fromBlock / 64 / 8 / 32 / 8
    let l2SlotIdx := l1SetIdx / 32
    let initL2Bit := l1SetIdx % 32
    let found := (List.range' l2SlotIdx (a.l2.length - l2SlotIdx)).findSome? fun curL2Slot =>
      let startL2Bit := if curL2Slot = l2SlotIdx then initL2Bit else 0
      (List.range' startL2Bit (32 - startL2Bit)).findSome? fun curL2Bit =>
        a.searchL2Entry fromBlock limit curL2Slot curL2Bit
    found.getD (0, 0)

/-! ## The methods -/

/-- One pass of `Allocate` from `fromBlock` : take runs until `left` blocks are taken or
none is left. Each turn takes at least one block, so `left` turns are enough. -/
def allocPass (pass : ℕ) :
    ℕ → AllocatorV3 → ℕ → ℕ → List Result → AllocatorV3 × ℕ × List Result
  | 0, a, _, left, results => (a, left, results)
  | fuel + 1, a, fromBlock, left, results =>
    if left = 0 then (a, left, results)
    else
      let (offset, size) := a.nextFreeRunFromLocked fromBlock left
      if size = 0 then (a, left, results)
      -- The second pass stops where the first one started.
      else if pass = 1 ∧ a.lastPos ≤ offset then (a, left, results)
      else
        let take := min size left
        let marked := (a.markRangeLocked offset take false).1
        allocPass pass fuel marked (offset + take) (left - take)
          (appendResult results ⟨offset, take⟩)

/-- Allocate `want` blocks, from `lastPos` on and then from the start. -/
def allocate (a : AllocatorV3) (want : ℤ) : AllocatorV3 × Except AllocError (List Result) :=
  if want ≤ 0 then (a, .error (.invalidSize want))
  else if a.available < want then (a, .error (.notEnoughSpace want a.available))
  else
    let (b, left, results) := allocPass 0 want.toNat a a.lastPos want.toNat []
    let (b, left, results) := allocPass 1 left b 0 left results
    if 0 < left then
      let b := results.foldl (fun b r => (b.markRangeLocked r.offset.toNat r.size.toNat true).1) b
      (b, .error (.bitmapInconsistent want left b.available))
    else
      let lastPos := match results.getLast? with
        | none => b.lastPos
        | some last =>
          let p := (last.offset + last.size).toNat
          if b.total ≤ p then 0 else p
      ({ b with available := b.available - want, lastPos }, .ok results)

/-- The check that an extent lies in `[0, total)`. -/
def validateRangeV3 (a : AllocatorV3) (offset size : ℤ) (op : RangeOp) : Except AllocError Unit :=
  let stop := wrap64 (offset + size)
  if offset < 0 ∨ size ≤ 0 ∨ stop < offset ∨ (a.total : ℤ) < stop then
    .error (.invalidExtent op offset size a.total)
  else .ok ()

/-- All bits of `[offset, offset + size)` are 0. -/
def rangeFullyAllocatedLocked (a : AllocatorV3) (offset size : ℕ) : Bool :=
  let stop := offset + size
  let startWord := offset / 64
  let endWord := (stop - 1) / 64
  (List.range' startWord (min (endWord + 1) a.l0.length - startWord)).all fun i =>
    a.l0.getD i 0#64 &&& (v3RangeMask offset stop i &&& a.v3ValidWordMask i) == 0#64

/-- The checks of `Release` on single extents, in order. -/
def validateRelease (a : AllocatorV3) : List Result → Except AllocError Unit
  | [] => .ok ()
  | r :: results =>
    match a.validateRangeV3 r.offset r.size .release with
    | .error e => .error e
    | .ok () =>
      if a.rangeFullyAllocatedLocked r.offset.toNat r.size.toNat then a.validateRelease results
      else .error (.notFullyAllocated r.offset r.size)

/-- The first two extents of the list that overlap. -/
def findOverlap : List Result → Option (Result × Result)
  | [] => none
  | r :: results =>
    match results.find? (extentsOverlap r) with
    | some s => some (r, s)
    | none => findOverlap results

/-- The loop of `Release` that frees the extents, with the number of bits it flips. -/
def releaseAll (a : AllocatorV3) (results : List Result) : AllocatorV3 × ℕ :=
  results.foldl (fun st r =>
    let marked := st.1.markRangeLocked r.offset.toNat r.size.toNat true
    (marked.1, st.2 + marked.2)) (a, 0)

/-- Free the extents `results`, if all of them are allocated and no two overlap. -/
def release (a : AllocatorV3) (results : List Result) : AllocatorV3 × Except AllocError Unit :=
  if results = [] then (a, .ok ())
  else match a.validateRelease results with
    | .error e => (a, .error e)
    | .ok () =>
      match findOverlap results with
      | some (r, s) => (a, .error (.extentsOverlap r s))
      | none =>
        let st := a.releaseAll results
        ({ st.1 with available := st.1.available + st.2 }, .ok ())

/-- Mark an extent as free or as allocated and move `available` by the bits that changed,
which then has to pass `check`. -/
def initRange (op : RangeOp) (free : Bool) (check : AllocatorV3 → Except AllocError Unit)
    (a : AllocatorV3) (offset size : ℤ) : AllocatorV3 × Except AllocError Unit :=
  if size ≤ 0 then (a, .ok ())
  else match a.validateRangeV3 offset size op with
    | .error e => (a, .error e)
    | .ok () =>
      let (b, changed) := a.markRangeLocked offset.toNat size.toNat free
      let available := if free then b.available + changed else b.available - changed
      ({ b with available }, check { b with available })

/-- Mark a persisted extent as allocated. -/
def initAllocated : AllocatorV3 → ℤ → ℤ → AllocatorV3 × Except AllocError Unit :=
  initRange .initAllocated false fun b =>
    if b.available < 0 then .error .belowZero else .ok ()

/-- Mark an extent as free. -/
def initFree : AllocatorV3 → ℤ → ℤ → AllocatorV3 × Except AllocError Unit :=
  initRange .initFree true fun b =>
    if (b.total : ℤ) < b.available then .error .exceedsTotal else .ok ()

/-! ## Runs -/

/-- A call of one of the mutating methods with `int64` arguments. -/
inductive Call
  | allocate (want : Int64)
  | release (results : List (Int64 × Int64))
  | initAllocated (offset size : Int64)
  | initFree (offset size : Int64)

/-- The allocator after a call, whether it succeeded or failed. -/
def call (a : AllocatorV3) : Call → AllocatorV3
  | .allocate want => (a.allocate want.toInt).1
  | .release results => (a.release (results.map fun r => ⟨r.1.toInt, r.2.toInt⟩)).1
  | .initAllocated offset size => (a.initAllocated offset.toInt size.toInt).1
  | .initFree offset size => (a.initFree offset.toInt size.toInt).1

/-- A state some sequence of calls leads to from a new allocator of `n` blocks. -/
def Reachable (n : ℕ) (a : AllocatorV3) : Prop :=
  ∃ calls : List Call, a = calls.foldl call (newAllocatorV3 n)

end AllocatorV3

end Corgi
