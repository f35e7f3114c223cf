import EltexTasks.Block
import EltexTasks.PointerBytes
import EltexTasks.ShellParse
/-!
# ShellArgs — the memory of `separate_args`

`separate_args` again, with the array it allocates for `args` and makes longer.  The guard of its loop does not look at
the position it has come to: the loop ends because a round without a space is the last one and a round with one passes
it.  Whatever the line and whichever requests of memory succeed, the line is read up to its NUL at most, every store into
`args` is inside the block, and what is returned is what `separateArgs` says (`separateArgsMem_spec`).
-/
namespace Eltex
namespace Shell
namespace SeparateArgs

/-- One more than the largest `size_t`. -/
def sizeRange : Nat := 2 ^ 64

/-- The largest block there is. -/
def ptrdiffMax : Nat := 2 ^ 63 - 1

/-- `alloc_size` -/
def allocSize : Nat := 100

/-- The variables of `separate_args`, and what it has done so far: the sizes of the blocks requested, the positions of
the line it has read from with `line_pos` at the time, and the indices it has stored at in `args` with the number of
pointers in the block.  In `args` a NULL is `some none`. -/
structure State where
  args : List (Option (Option CString))
  linePos : Nat
  arrPos : Nat
  curArrSize : Nat
  requests : List Nat
  examined : List (Nat × Nat)
  stores : List (Nat × Nat)
deriving DecidableEq, Repr

/-- `malloc` and `realloc` succeed at the `k`-th request where the system grants it, except for a block that is larger
than any object. -/
def granted (grants : Nat → Bool) (k bytes : Nat) : Bool := grants k && decide (bytes ≤ ptrdiffMax)

variable (grants : Nat → Bool)

/-- A request of memory; where it fails the error is printed, and the state is the one in which `exit(1)` is called. -/
def allocate (s : State) (bytes : Nat) : Except State State :=
  let t := { s with requests := s.requests ++ [bytes] }
  if granted grants s.requests.length bytes then .ok t else .error t

def State.examine (s : State) (pos : Nat) : State := { s with examined := s.examined ++ [(pos, s.linePos)] }

@[simp] theorem State.linePos_examine (s : State) (pos : Nat) : (s.examine pos).linePos = s.linePos := rfl

/-- `args[arr_pos] = value` -/
def State.store (s : State) (value : Option CString) : State :=
  { s with args := s.args.set s.arrPos (some value), stores := s.stores ++ [(s.arrPos, s.args.length)] }

/-- The first block. -/
def start : Except State State :=
  let bytes := pointerSize * allocSize
  (allocate grants ⟨[], 0, 0, allocSize, [], [], []⟩ bytes).map fun s =>
    { s with args := Block.malloc (bytes / pointerSize) }

/-- The two growth steps: where `arr_pos` has reached `cur_arr_size`, the block is made longer by `more` pointers. -/
def grow (s : State) (more : Nat) : Except State State :=
  if s.arrPos ≥ s.curArrSize then
    let curArrSize := (s.curArrSize + more) % sizeRange
    let bytes := curArrSize * pointerSize % sizeRange
    (allocate grants { s with curArrSize := curArrSize } bytes).map fun t =>
      { t with args := Block.realloc t.args (bytes / pointerSize) }
  else .ok s

/-- The string for a word: the pointer is stored before it is compared with NULL. -/
def storeWord (s : State) (word : CString) : Except State State :=
  match allocate grants s (word.length + 1) with
  | .error t => .error (t.store none)
  | .ok t => .ok (t.store (some word))

inductive Round where
  | again (s : State)
  | leave (s : State) (valueToReturn : Nat)
deriving DecidableEq, Repr

/-- The body of the loop. -/
def round (line : CString) (s : State) : Except State Round := do
  let s := s.examine s.linePos
  let rest := line.drop s.linePos
  let nextSpace := strchr rest space
  let length := nextSpace.getD rest.length
  if strncmpEq bar rest length then return .leave s 1
  let s ← grow grants s allocSize
  let s ← storeWord grants s (rest.take length)
  let s := { s with linePos := s.linePos + length + 1, arrPos := s.arrPos + 1 }
  return if nextSpace.isNone then .leave s 0 else .again s

/-- `line_pos != '\0'` -/
def guardIndex (linePos : Nat) : Nat := if linePos ≠ 0 then 1 else 0

/-- The loop, with room for `rounds` rounds; `none` where they are not enough. -/
def loop (line : CString) : Nat → State → Option (Except State (State × Nat))
  | rounds, s =>
    let s := s.examine (guardIndex s.linePos)
    match (line)[guardIndex s.linePos]? with
    | none => some (.ok (s, 0))
    | some _ =>
      match rounds with
      | 0 => none
      | rounds + 1 =>
        match round grants line s with
        | .error t => some (.error t)
        | .ok (.leave t valueToReturn) => some (.ok (t, valueToReturn))
        | .ok (.again t) => loop line rounds t

/-- What follows the loop. -/
def finish (r : State × Nat) : Except State (State × Nat) := do
  let s ← grow grants r.1 1
  return (s.store none, r.2)

/-- `separate_args` and the value returned. -/
def separateArgsMem (line : CString) (rounds : Nat) : Option (Except State (State × Nat)) :=
  match start grants with
  | .error s => some (.error s)
  | .ok s => (loop grants line rounds s).map fun r => r.bind (finish grants)

/-! ## What the accesses are to satisfy -/

/-- **Every access is in bounds**: the line is read from its first byte to its NUL, with `line_pos` there too, and what
is stored goes into the block.  No block is larger than a line of this length needs. -/
structure InBounds (line : CString) (s : State) : Prop where
  examined : ∀ r ∈ s.examined, r.1 ≤ line.length ∧ r.2 ≤ line.length
  stores : ∀ w ∈ s.stores, w.1 < w.2
  requests : ∀ bytes ∈ s.requests, bytes ≤ pointerSize * (line.length + allocSize + 1)

/-- `args[arr_pos]` is NULL and none of the pointers before it is. -/
def NullTerminated (s : State) : Prop :=
  s.args[s.arrPos]? = some (some none) ∧ ∀ i < s.arrPos, ∃ word, s.args[i]? = some (some (some word))

/-- A request has failed. -/
def Refused (s : State) : Prop := ∃ k bytes, s.requests[k]? = some bytes ∧ granted grants k bytes = false

/-- What is left at the end meets `P`, or a request has failed and the accesses before it were in bounds. -/
def Leads {β : Type} (line : CString) (P : β → Prop) : Except State β → Prop
  | .ok b => P b
  | .error s => InBounds line s ∧ Refused grants s

section Leads

variable {grants} {β γ : Type} {line : CString} {P : β → Prop} {Q : γ → Prop}

theorem Leads.mono {P' : β → Prop} {x : Except State β} (h : Leads grants line P x) (hP : ∀ b, P b → P' b) :
    Leads grants line P' x := by
  cases x with
  | error s => exact h
  | ok b => exact hP b h

theorem Leads.bind {x : Except State β} {f : β → Except State γ} (h : Leads grants line P x)
    (hf : ∀ b, P b → Leads grants line Q (f b)) : Leads grants line Q (x.bind f) := by
  cases x with
  | error s => exact h
  | ok b => exact hf b h

end Leads

/-! ## The block of `args` -/

/-- The words stored so far are `ws`. -/
structure Holding (line : CString) (ws : List CString) (s : State) : Prop where
  bounds : InBounds line s
  words : Block.Holds s.args (ws.map some)
  arrPos : s.arrPos = ws.length
  size : s.args.length = s.curArrSize
  room : s.arrPos ≤ s.curArrSize
  fits : s.curArrSize * pointerSize ≤ ptrdiffMax
  short : s.arrPos ≤ line.length + 1

variable {grants} {line : CString} {ws : List CString} {s : State}

theorem InBounds.request (h : InBounds line s) {bytes : Nat}
    (hbytes : bytes ≤ pointerSize * (line.length + allocSize + 1)) :
    InBounds line { s with requests := s.requests ++ [bytes] } where
  examined := h.examined
  stores := h.stores
  requests := by
    intro b hb
    rcases List.mem_append.1 hb with hb | hb
    · exact h.requests b hb
    · rw [List.mem_singleton.1 hb]; exact hbytes

theorem InBounds.examine (h : InBounds line s) {pos : Nat} (hpos : pos ≤ line.length)
    (hline : s.linePos ≤ line.length) : InBounds line (s.examine pos) where
  examined := by
    intro r hr
    rcases List.mem_append.1 hr with hr | hr
    · exact h.examined r hr
    · rw [List.mem_singleton.1 hr]; exact ⟨hpos, hline⟩
  stores := h.stores
  requests := h.requests

theorem InBounds.store (h : InBounds line s) (hlt : s.arrPos < s.args.length) (value : Option CString) :
    InBounds line (s.store value) where
  examined := h.examined
  stores := by
    intro w hw
    rcases List.mem_append.1 hw with hw | hw
    · exact h.stores w hw
    · rw [List.mem_singleton.1 hw]; exact hlt
  requests := h.requests

theorem allocate_cases (s : State) (bytes : Nat) :
    (allocate grants s bytes = .ok { s with requests := s.requests ++ [bytes] } ∧ bytes ≤ ptrdiffMax) ∨
      (allocate grants s bytes = .error { s with requests := s.requests ++ [bytes] } ∧
        granted grants s.requests.length bytes = false) := by
  unfold allocate
  cases hg : granted grants s.requests.length bytes with
  | true => exact .inl ⟨if_pos rfl, by simpa using (Bool.and_eq_true_iff.1 hg).2⟩
  | false => exact .inr ⟨if_neg Bool.false_ne_true, rfl⟩

theorem refused_last {s t : State} {bytes : Nat} (ht : t.requests = s.requests ++ [bytes])
    (hg : granted grants s.requests.length bytes = false) : Refused grants t :=
  ⟨s.requests.length, bytes, by rw [ht, List.getElem?_concat_length], hg⟩

/-- A block is requested and `f` is what is done with it. -/
theorem allocate_spec (h : InBounds line s) {bytes : Nat} (hbytes : bytes ≤ pointerSize * (line.length + allocSize + 1))
    {f : State → State} {P : State → Prop}
    (hf : ∀ t, t = { s with requests := s.requests ++ [bytes] } → InBounds line t → bytes ≤ ptrdiffMax → P (f t)) :
    Leads grants line P ((allocate grants s bytes).map f) := by
  have hbounds := h.request hbytes
  obtain ⟨hok, hfits⟩ | ⟨herror, hg⟩ := @allocate_cases grants s bytes
  · rw [hok]
    exact hf _ rfl hbounds hfits
  · rw [herror]
    exact ⟨hbounds, refused_last (s := s) rfl hg⟩

theorem start_spec (grants : Nat → Bool) (line : CString) :
    Leads grants line (fun s => Holding line [] s ∧ s.linePos = 0) (start grants) := by
  have hbytes : pointerSize * allocSize ≤ pointerSize * (line.length + allocSize + 1) :=
    Nat.mul_le_mul_left _ (by omega)
  have hempty : InBounds line ⟨[], 0, 0, allocSize, [], [], []⟩ := ⟨by simp, by simp, by simp⟩
  refine allocate_spec hempty hbytes ?_
  rintro t rfl hbounds hfits
  refine ⟨⟨⟨hbounds.examined, hbounds.stores, hbounds.requests⟩, Block.holds_nil _, rfl, ?_, ?_, ?_, ?_⟩, rfl⟩
  · exact Block.length_malloc _
  · exact Nat.zero_le _
  · rw [Nat.mul_comm]; exact hfits
  · exact Nat.zero_le _

/-- The sizes never leave the range of `size_t`. -/
theorem grown_size {curArrSize more : Nat} (hfits : curArrSize * pointerSize ≤ ptrdiffMax) (hmore : more ≤ allocSize) :
    (curArrSize + more) % sizeRange = curArrSize + more ∧
      (curArrSize + more) * pointerSize % sizeRange = (curArrSize + more) * pointerSize := by
  simp only [pointerSize, ptrdiffMax, allocSize, sizeRange] at *
  omega

/-- **After a growth step there is room** for one more pointer. -/
theorem grow_spec (h : Holding line ws s) {more : Nat} (hpos : 0 < more) (hmore : more ≤ allocSize) :
    Leads grants line (fun t => Holding line ws t ∧ t.arrPos < t.curArrSize ∧ t.linePos = s.linePos)
      (grow grants s more) := by
  unfold grow
  by_cases hfull : s.arrPos ≥ s.curArrSize
  case neg =>
    rw [if_neg hfull]
    exact ⟨h, Nat.lt_of_not_le hfull, rfl⟩
  have hroom := h.room
  have hshort := h.short
  obtain ⟨hcur, hsize⟩ := grown_size h.fits hmore
  have hbytes : (s.curArrSize + more) * pointerSize ≤ pointerSize * (line.length + allocSize + 1) := by
    rw [Nat.mul_comm]
    exact Nat.mul_le_mul_left _ (by omega)
  rw [if_pos hfull]
  simp only [hcur, hsize]
  have hgrown : InBounds line { s with curArrSize := s.curArrSize + more } :=
    ⟨h.bounds.examined, h.bounds.stores, h.bounds.requests⟩
  refine allocate_spec hgrown hbytes ?_
  rintro t rfl hbounds hfits
  have hlength : (s.curArrSize + more) * pointerSize / pointerSize = s.curArrSize + more :=
    Nat.mul_div_cancel _ (by decide)
  rw [hlength]
  refine ⟨⟨⟨hbounds.examined, hbounds.stores, hbounds.requests⟩, ?_, h.arrPos, ?_, ?_, hfits, hshort⟩, ?_, rfl⟩
  · exact h.words.realloc (by rw [h.size]; omega)
  · exact Block.length_realloc _ _
  · exact Nat.le_add_right_of_le hroom
  · show s.arrPos < s.curArrSize + more
    omega

theorem Holding.stored (h : Holding line ws s) (hlt : s.arrPos < s.curArrSize) (value : Option CString) :
    InBounds line (s.store value) ∧ Block.Holds (s.store value).args (ws.map some ++ [value]) := by
  have hlen : (ws.map some).length = s.arrPos := by rw [List.length_map, h.arrPos]
  refine ⟨h.bounds.store (by rw [h.size]; exact hlt) value, ?_⟩
  have hstore := h.words.store (x := value) (by rw [hlen, h.size]; exact hlt)
  rwa [hlen] at hstore

/-- **A word is stored** behind the others. -/
theorem storeWord_spec (h : Holding line ws s) (hlt : s.arrPos < s.curArrSize) (hshort : s.arrPos ≤ line.length)
    {word : CString} (hword : word.length ≤ line.length) (next : Nat) :
    Leads grants line (fun t => Holding line (ws ++ [word]) { t with linePos := next, arrPos := t.arrPos + 1 } ∧
      t.linePos = s.linePos ∧ t.arrPos = s.arrPos) (storeWord grants s word) := by
  let s' : State := { s with requests := s.requests ++ [word.length + 1] }
  have hbytes : word.length + 1 ≤ pointerSize * (line.length + allocSize + 1) := by
    unfold pointerSize
    omega
  have h' : Holding line ws s' :=
    ⟨h.bounds.request hbytes, h.words, h.arrPos, h.size, h.room, h.fits, h.short⟩
  unfold storeWord
  obtain ⟨hok, -⟩ | ⟨herror, hg⟩ := @allocate_cases grants s (word.length + 1)
  · simp only [hok]
    obtain ⟨hbounds, hwords⟩ := h'.stored hlt (some word)
    refine ⟨⟨⟨hbounds.examined, hbounds.stores, hbounds.requests⟩, ?_, ?_, ?_, ?_, h.fits, ?_⟩, rfl, rfl⟩
    · simpa using hwords
    · show s.arrPos + 1 = (ws ++ [word]).length
      rw [List.length_append, List.length_singleton, h.arrPos]
    · show (s.args.set s.arrPos (some (some word))).length = s.curArrSize
      rw [List.length_set, h.size]
    · exact hlt
    · exact Nat.succ_le_succ hshort
  · simp only [herror]
    exact ⟨(h'.stored hlt none).1, refused_last (s := s) rfl hg⟩

/-! ## The loop -/

/-- `length` in the round at `linePos`. -/
def lengthOf (line : CString) (linePos : Nat) : Nat :=
  (strchr (line.drop linePos) space).getD (line.drop linePos).length

theorem lengthOf_le (line : CString) (linePos : Nat) : lengthOf line linePos ≤ (line.drop linePos).length := by
  unfold lengthOf
  cases hspace : strchr (line.drop linePos) space with
  | none => exact Nat.le_refl _
  | some length => exact Nat.le_of_lt (lt_of_strchr hspace)

theorem separateArgsLoop_round {linePos : Nat} {b : Byte} (hguard : (line)[guardIndex linePos]? = some b)
    (args : List CString) : separateArgsLoop line linePos args =
      if strncmpEq bar (line.drop linePos) (lengthOf line linePos) then (args, 1)
      else if (strchr (line.drop linePos) space).isNone then
        (args ++ [(line.drop linePos).take (lengthOf line linePos)], 0)
      else separateArgsLoop line (linePos + lengthOf line linePos + 1)
        (args ++ [(line.drop linePos).take (lengthOf line linePos)]) := by
  unfold guardIndex at hguard
  rw [separateArgsLoop, hguard]
  unfold lengthOf
  simp only
  split
  · rename_i hnone
    simp [hnone]
  · rename_i length hsome
    simp [hsome]

theorem round_eq (s : State) : round grants line s =
    if strncmpEq bar (line.drop s.linePos) (lengthOf line s.linePos) then .ok (.leave (s.examine s.linePos) 1)
    else (grow grants (s.examine s.linePos) allocSize).bind fun t =>
      (storeWord grants t ((line.drop s.linePos).take (lengthOf line s.linePos))).bind fun u =>
        let u := { u with linePos := u.linePos + lengthOf line s.linePos + 1, arrPos := u.arrPos + 1 }
        .ok (if (strchr (line.drop s.linePos) space).isNone then .leave u 0 else .again u) :=
  rfl

/-- A space is passed in each round that is not the last. -/
theorem count_drop {linePos length : Nat} (hsome : strchr (line.drop linePos) space = some length) :
    (line.drop linePos).count space = (line.drop (linePos + length + 1)).count space + 1 := by
  obtain ⟨hsplit, hnot⟩ := split_of_strchr hsome
  have hcount := congrArg (List.count space) hsplit
  rw [List.count_append, List.count_eq_zero.2 hnot, List.count_cons_self, List.drop_drop] at hcount
  rw [hcount, Nat.zero_add, Nat.add_assoc]

/-- The loop has come to `linePos`, where the words before it have been stored. -/
structure AtRound (line : CString) (ws : List CString) (s : State) : Prop where
  holding : Holding line ws s
  inLine : s.linePos ≤ line.length
  arrPos_le : s.arrPos ≤ s.linePos

/-- What a round from `linePos` with the words `ws` is to do. -/
def RoundSpec (line : CString) (ws : List CString) (linePos : Nat) : Round → Prop
  | .again t => ∃ word, AtRound line (ws ++ [word]) t ∧
      (line.drop linePos).count space = (line.drop t.linePos).count space + 1 ∧
      separateArgsLoop line linePos ws = separateArgsLoop line t.linePos (ws ++ [word])
  | .leave t valueToReturn => ∃ vs, Holding line vs t ∧ separateArgsLoop line linePos ws = (vs, valueToReturn)

theorem AtRound.examine (h : AtRound line ws s) {pos : Nat} (hpos : pos ≤ line.length) :
    AtRound line ws (s.examine pos) :=
  ⟨{ h.holding with bounds := h.holding.bounds.examine hpos h.inLine }, h.inLine, h.arrPos_le⟩

/-- **A round** stores a word and passes a space, or it is the last. -/
theorem round_spec (h : AtRound line ws s) {b : Byte} (hguard : (line)[guardIndex s.linePos]? = some b) :
    Leads grants line (RoundSpec line ws s.linePos) (round grants line s) := by
  have hinLine := h.inLine
  have harrPos := h.arrPos_le
  have hexamined := h.examine h.inLine
  have hloop := separateArgsLoop_round hguard ws
  have hlength := lengthOf_le line s.linePos
  rw [List.length_drop] at hlength
  rw [round_eq]
  by_cases hbar : strncmpEq bar (line.drop s.linePos) (lengthOf line s.linePos) = true
  · rw [if_pos hbar] at hloop ⊢
    exact ⟨ws, hexamined.holding, hloop⟩
  rw [if_neg hbar] at hloop ⊢
  have hword : ((line.drop s.linePos).take (lengthOf line s.linePos)).length ≤ line.length := by
    rw [List.length_take, List.length_drop]
    omega
  refine (grow_spec hexamined.holding (by decide) (Nat.le_refl _)).bind fun t ⟨ht, hroom, htpos⟩ => ?_
  have htpos : t.linePos = s.linePos := htpos
  have htarr : t.arrPos = s.arrPos := ht.arrPos.trans h.holding.arrPos.symm
  refine (storeWord_spec ht hroom (by omega) hword (s.linePos + lengthOf line s.linePos + 1)).bind
    fun u ⟨hu, hupos, huarr⟩ => ?_
  rw [hupos, htpos]
  cases hspace : strchr (line.drop s.linePos) space with
  | none =>
    -- the piece up to the NUL
    rw [hspace] at hloop
    exact ⟨_, hu, hloop⟩
  | some length =>
    have hlt := lt_of_strchr hspace
    have hlengthOf : lengthOf line s.linePos = length := by rw [lengthOf, hspace]; rfl
    rw [List.length_drop] at hlt
    rw [hspace] at hloop
    refine ⟨_, ⟨hu, ?_, ?_⟩, ?_, hloop⟩
    · show s.linePos + lengthOf line s.linePos + 1 ≤ line.length
      omega
    · show u.arrPos + 1 ≤ s.linePos + lengthOf line s.linePos + 1
      omega
    · rw [hlengthOf]
      exact count_drop hspace

/-- **The loop ends** in at most one more round than there are spaces from `line_pos` on, with the words that
`separateArgsLoop` gives. -/
theorem loop_spec : ∀ (rounds : Nat) (ws : List CString) (s : State), AtRound line ws s →
    (line.drop s.linePos).count space < rounds → ∃ r, loop grants line rounds s = some r ∧
      Leads grants line (fun p => ∃ vs, Holding line vs p.1 ∧ separateArgsLoop line s.linePos ws = (vs, p.2)) r
  | 0, _, _, _, hrounds => absurd hrounds (Nat.not_lt_zero _)
  | rounds + 1, ws, s, h, hrounds => by
    have hinLine := h.inLine
    have hguardIndex : guardIndex s.linePos ≤ line.length := by
      unfold guardIndex
      split <;> omega
    have hexamined := h.examine hguardIndex
    rw [loop]
    simp only [State.linePos_examine]
    cases hguard : (line)[guardIndex s.linePos]? with
    | none =>
      refine ⟨_, rfl, ?_⟩
      refine ⟨ws, hexamined.holding, ?_⟩
      unfold guardIndex at hguard
      rw [separateArgsLoop, hguard]
    | some b =>
      have hround := @round_spec grants line ws (s.examine (guardIndex s.linePos)) hexamined b hguard
      cases hr : round grants line (s.examine (guardIndex s.linePos)) with
      | error t =>
        rw [hr] at hround
        refine ⟨_, rfl, ?_⟩
        exact hround
      | ok next =>
        rw [hr] at hround
        cases next with
        | leave t valueToReturn =>
          refine ⟨_, rfl, ?_⟩
          exact hround
        | again t =>
          obtain ⟨word, ht, hcount, hloop⟩ := hround
          have hcount : (line.drop s.linePos).count space = (line.drop t.linePos).count space + 1 := hcount
          have hloop : separateArgsLoop line s.linePos ws = separateArgsLoop line t.linePos (ws ++ [word]) := hloop
          rw [hloop]
          exact loop_spec rounds (ws ++ [word]) t ht (by omega)

/-! ## The whole function -/

/-- The array holds the words of `separateArgs` with a NULL behind them, and its value is returned. -/
structure Done (line : CString) (p : State × Nat) : Prop where
  bounds : InBounds line p.1
  args : Block.Holds p.1.args ((separateArgs line).1.map some ++ [none])
  arrPos : p.1.arrPos = (separateArgs line).1.length
  value : p.2 = (separateArgs line).2

theorem finish_spec {valueToReturn : Nat} (h : Holding line ws s) (hws : separateArgs line = (ws, valueToReturn)) :
    Leads grants line (Done line) (finish grants (s, valueToReturn)) := by
  refine (grow_spec h Nat.one_pos (by decide)).bind fun t ⟨ht, hroom, _⟩ => ?_
  obtain ⟨hbounds, hargs⟩ := ht.stored hroom none
  refine ⟨hbounds, ?_, ?_, ?_⟩
  · rw [hws]; exact hargs
  · rw [hws]; exact ht.arrPos
  · rw [hws]

/-- **`separate_args` is `separateArgs`** in memory: it needs one round more than the line has spaces at most, and where
it does not return a request of memory has failed. -/
theorem separateArgsMem_spec (grants : Nat → Bool) (line : CString) :
    ∃ r, separateArgsMem grants line (line.count space + 1) = some r ∧ Leads grants line (Done line) r := by
  have hstart := start_spec grants line
  unfold separateArgsMem
  cases hs : start grants with
  | error s =>
    rw [hs] at hstart
    exact ⟨.error s, rfl, hstart⟩
  | ok s =>
    rw [hs] at hstart
    obtain ⟨hholding, hpos⟩ := hstart
    have hround : AtRound line [] s := by
      refine ⟨hholding, ?_, ?_⟩
      · rw [hpos]; exact Nat.zero_le _
      · rw [hholding.arrPos]; exact Nat.zero_le _
    obtain ⟨r, hloop, hr⟩ := @loop_spec grants line (line.count space + 1) [] s hround (by rw [hpos]; simp)
    simp only [hloop, Option.map_some]
    refine ⟨_, rfl, hr.bind fun p ⟨ws, hws, hvalue⟩ => ?_⟩
    rw [hpos] at hvalue
    exact finish_spec hws hvalue

/-- `ls |`: two rounds, in the second of which the loop is left before anything is stored. -/
example : ((separateArgsMem (fun _ => true) (str ['l', 's', ' ', '|']) 2).bind Except.toOption).map
    (fun p => (p.1.examined, p.1.stores, p.2)) =
      some ([(0, 0), (0, 0), (1, 3), (3, 3)], [(0, 100), (1, 100)], 1) := by
  decide +kernel

theorem Done.nullTerminated {p : State × Nat} (h : Done line p) : NullTerminated p.1 := by
  constructor
  · refine h.args.get ?_
    rw [h.arrPos]
    simp
  · intro i hi
    rw [h.arrPos] at hi
    refine ⟨(separateArgs line).1[i], h.args.get ?_⟩
    rw [List.getElem?_append_left (by simpa using hi), List.getElem?_map, List.getElem?_eq_getElem hi]
    rfl

/-- Where there is memory a line that an address space can hold is always cut. -/
theorem separateArgsMem_returns (hmemory : ∀ k, grants k = true) (hlen : line.length < 2 ^ 59) :
    ∃ p, separateArgsMem grants line (line.count space + 1) = some (.ok p) ∧ Done line p := by
  obtain ⟨r, hr, hleads⟩ := separateArgsMem_spec grants line
  cases r with
  | ok p => exact ⟨p, hr, hleads⟩
  | error s =>
    obtain ⟨hbounds, k, bytes, hrequest, hg⟩ := hleads
    have hbytes := hbounds.requests bytes (List.mem_of_getElem? hrequest)
    have hfits : bytes ≤ ptrdiffMax := by
      simp only [pointerSize, allocSize, ptrdiffMax] at *
      omega
    simp [granted, hmemory, hfits] at hg

/-- **`separate_args` stays in bounds and ends** on every line and whichever of its requests of memory succeed: after at
most one more round than the line has spaces, it has read the line up to its NUL only and stored inside the block of
`args` only, and either `args` is NULL-terminated or a request has failed. -/
theorem separate_args_in_bounds (grants : Nat → Bool) (line : CString) :
    ∃ r, separateArgsMem grants line (line.count space + 1) = some r ∧
      Leads grants line (fun p => InBounds line p.1 ∧ NullTerminated p.1) r := by
  obtain ⟨r, hr, hleads⟩ := separateArgsMem_spec grants line
  exact ⟨r, hr, hleads.mono fun p hp => ⟨hp.bounds, hp.nullTerminated⟩⟩

end SeparateArgs
end Shell
end Eltex
