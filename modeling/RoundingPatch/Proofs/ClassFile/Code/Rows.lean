import RoundingPatch.ClassFile.Code.Body
import RoundingPatch.Proofs.Bytes.Spelling
/-!
# How the rows of tables are spelled

The tables of a `Code` attribute hold rows of numbers, most of which are offsets and indices of
the pool. For each sort of row, one relation says which bytes spell it: exception handlers
(`SpelledHandler`), line numbers (`SpelledLine`), local variables (`SpelledLocal`) and stack map
frames (`SpelledFrame`), whose offsets are spelled as steps from one frame to the next
(`SpelledFrames`). The readers of the tables read what is spelled (`reads_readLines` and so on)
and nothing else (`spells_readLines` and so on).
-/

namespace RoundingPatch.ClassFile.Body

open Read

variable {pool : ConstantPool} {bytes : Bytes} {length : Nat}

/-! ### Exception handlers -/

/-- A handler is spelled by three offsets and the index of a class, or 0 for every class. -/
def SpelledHandler (pool : ConstantPool) (h : TryCatch) (bytes : Bytes) : Prop :=
  ∃ start stop handler catchType : UInt16,
    h.start = labelAt start.toNat ∧ h.stop = labelAt stop.toNat ∧
    h.handler = labelAt handler.toNat ∧ pool.className? catchType = .ok h.catchType ∧
    bytes = Bytes.ofU2 start ++ (Bytes.ofU2 stop ++ (Bytes.ofU2 handler ++ Bytes.ofU2 catchType))

/-- Whatever is read as a handler is a spelling of it. -/
theorem spells_readHandler : Spells (readHandler pool) (SpelledHandler pool) := by
  refine (spells_u2 _).bind fun start _ h1 => (spells_u2 _).bind fun stop _ h2 =>
    (spells_u2 _).bind fun handler _ h3 => (spells_u2 _).bind fun catchType _ h4 =>
    (spells_lift _).bind fun name _ h5 => spells_pure ?_
  obtain ⟨hname, rfl⟩ := h5
  exact ⟨start, stop, handler, catchType, rfl, rfl, rfl, hname, by simp [h1, h2, h3, h4]⟩

/-- The spelling of a handler is read as the handler. -/
theorem reads_readHandler (h : TryCatch) (bytes : Bytes) (hspelled : SpelledHandler pool h bytes) :
    Reads (readHandler pool) bytes h := by
  rcases h with ⟨_, _, _, name⟩
  obtain ⟨start, stop, handler, catchType, rfl, rfl, rfl, hname, rfl⟩ := hspelled
  exact (reads_u2 start _).bind ((reads_u2 stop _).bind ((reads_u2 handler _).bind
    ((reads_u2 catchType _).bind_nil ((reads_lift hname).bind_nil (reads_pure _)))))

/-! ### Line numbers -/

/-- A line number is spelled behind its offset. -/
def SpelledLine (p : Nat × UInt16) (bytes : Bytes) : Prop :=
  ∃ start : UInt16, p.1 = start.toNat ∧ bytes = Bytes.ofU2 start ++ Bytes.ofU2 p.2

theorem spells_readLines : Spells readLines (Bytes.Counted SpelledLine) := by
  refine spells_counted ?_ _
  refine (spells_u2 _).bind fun start _ h1 => (spells_u2 _).bind fun line _ h2 => spells_pure ?_
  exact ⟨start, rfl, by simp [h1, h2]⟩

theorem reads_readLines {lines : List (Nat × UInt16)} (h : Bytes.Counted SpelledLine lines bytes) :
    Reads readLines bytes lines := by
  refine reads_counted (fun p bytes hspelled => ?_) h _
  rcases p with ⟨_, line⟩
  obtain ⟨start, rfl, rfl⟩ := hspelled
  exact (reads_u2 start _).bind ((reads_u2 line _).map _)

/-! ### Local variables -/

/-- A local variable is spelled by an offset and a length, the indices of its texts, and its
number. -/
def SpelledLocal (pool : ConstantPool) (table : LocalTable) (v : LocalVariable) (bytes : Bytes) :
    Prop :=
  ∃ start length name descriptor : UInt16, v.table = table ∧
    v.start = labelAt start.toNat ∧ v.stop = labelAt (start.toNat + length.toNat) ∧
    pool.utf8 name = .ok v.name ∧ pool.utf8 descriptor = .ok v.descriptor ∧
    bytes = Bytes.ofU2 start ++ (Bytes.ofU2 length ++ (Bytes.ofU2 name
      ++ (Bytes.ofU2 descriptor ++ Bytes.ofU2 v.index)))

theorem spells_readLocals (table : LocalTable) :
    Spells (readLocals pool table) (Bytes.Counted (SpelledLocal pool table)) := by
  refine spells_counted ?_ _
  refine (spells_u2 _).bind fun start _ h1 => (spells_u2 _).bind fun length _ h2 =>
    (spells_u2 _).bind fun name _ h3 => (spells_lift _).bind fun _ _ h4 =>
    (spells_u2 _).bind fun descriptor _ h5 => (spells_lift _).bind fun _ _ h6 =>
    (spells_u2 _).bind fun index _ h7 => spells_pure ?_
  obtain ⟨hname, rfl⟩ := h4
  obtain ⟨hdescriptor, rfl⟩ := h6
  exact ⟨start, length, name, descriptor, rfl, rfl, rfl, hname, hdescriptor,
    by simp [h1, h2, h3, h5, h7]⟩

theorem reads_readLocals {table : LocalTable} {locals : List LocalVariable}
    (h : Bytes.Counted (SpelledLocal pool table) locals bytes) :
    Reads (readLocals pool table) bytes locals := by
  refine reads_counted (fun v bytes hspelled => ?_) h _
  rcases v with ⟨_, _, _, _, _, index⟩
  obtain ⟨start, length, name, descriptor, rfl, rfl, rfl, hname, hdescriptor, rfl⟩ := hspelled
  exact (reads_u2 start _).bind ((reads_u2 length _).bind ((reads_u2 name _).bind
    ((reads_lift hname).bind (p := []) ((reads_u2 descriptor _).bind
      ((reads_lift hdescriptor).bind (p := []) ((reads_u2 index _).map _))))))

/-! ### Stack map frames -/

/-- A verification type is spelled by its tag, and by an index or an offset behind it. -/
inductive SpelledType (pool : ConstantPool) : VType → Bytes → Prop
  | top : SpelledType pool .top [0]
  | integer : SpelledType pool .integer [1]
  | float : SpelledType pool .float [2]
  | double : SpelledType pool .double [3]
  | long : SpelledType pool .long [4]
  | null : SpelledType pool .null [5]
  | uninitializedThis : SpelledType pool .uninitializedThis [6]
  | object {i : UInt16} {name : String} (h : pool.className i = .ok name) :
      SpelledType pool (.object name) (7 :: Bytes.ofU2 i)
  | uninitialized (offset : UInt16) :
      SpelledType pool (.uninitialized (labelAt offset.toNat)) (8 :: Bytes.ofU2 offset)

/-- Whatever is read as a type is a spelling of it: its tag, and an index or an offset behind two of
them. -/
theorem spells_readVType : Spells (readVType pool) (SpelledType pool) := by
  refine (spells_u1 _).bind fun tag front hfront => ?_
  subst hfront
  split
  -- The two tags with something behind them come first.
  case h_8 htag =>
    obtain rfl : tag = 7 := UInt8.toNat_inj.mp htag
    refine (spells_u2 _).bind fun i _ h1 => (spells_lift _).bind fun name _ h2 => spells_pure ?_
    obtain ⟨hname, rfl⟩ := h2
    rw [h1, List.nil_append, List.append_nil]
    exact .object hname
  case h_9 htag =>
    obtain rfl : tag = 8 := UInt8.toNat_inj.mp htag
    refine (spells_u2 _).bind fun offset _ h1 => spells_pure ?_
    rw [h1, List.append_nil]
    exact .uninitialized offset
  case h_10 => exact spells_malformed _
  case h_1 htag => exact spells_pure ((UInt8.toNat_inj.mp htag : tag = 0) ▸ .top)
  case h_2 htag => exact spells_pure ((UInt8.toNat_inj.mp htag : tag = 1) ▸ .integer)
  case h_3 htag => exact spells_pure ((UInt8.toNat_inj.mp htag : tag = 2) ▸ .float)
  case h_4 htag => exact spells_pure ((UInt8.toNat_inj.mp htag : tag = 3) ▸ .double)
  case h_5 htag => exact spells_pure ((UInt8.toNat_inj.mp htag : tag = 4) ▸ .long)
  case h_6 htag => exact spells_pure ((UInt8.toNat_inj.mp htag : tag = 5) ▸ .null)
  case h_7 htag => exact spells_pure ((UInt8.toNat_inj.mp htag : tag = 6) ▸ .uninitializedThis)

theorem reads_readVType (v : VType) (bytes : Bytes) (h : SpelledType pool v bytes) :
    Reads (readVType pool) bytes v := by
  unfold readVType
  cases h with
  | object hname => exact (reads_u1 7 _).bind ((reads_u2 _ _).bind_nil ((reads_lift hname).map _))
  | uninitialized offset => exact (reads_u1 8 _).bind ((reads_u2 offset _).map _)
  | _ => exact (reads_u1 _ _).bind_nil (reads_pure _)

/-- A frame and the step to it are spelled in one of seven forms. -/
inductive SpelledFrame (pool : ConstantPool) : Nat × Frame → Bytes → Prop
  | same {tag : UInt8} (high : tag.toNat ≤ 63) : SpelledFrame pool (tag.toNat, .same) [tag]
  | sameWithOne {tag : UInt8} {type : VType} {bytes : Bytes} (low : 64 ≤ tag.toNat)
      (high : tag.toNat ≤ 127) (h : SpelledType pool type bytes) :
      SpelledFrame pool (tag.toNat - 64, .sameWithOne type) (tag :: bytes)
  | sameWithOneFar (delta : UInt16) {type : VType} {bytes : Bytes}
      (h : SpelledType pool type bytes) :
      SpelledFrame pool (delta.toNat, .sameWithOne type) (247 :: (Bytes.ofU2 delta ++ bytes))
  | chop (delta : UInt16) {tag : UInt8} (low : 248 ≤ tag.toNat) (high : tag.toNat ≤ 250) :
      SpelledFrame pool (delta.toNat, .chop (UInt8.ofNat (251 - tag.toNat)))
        (tag :: Bytes.ofU2 delta)
  | sameFar (delta : UInt16) : SpelledFrame pool (delta.toNat, .same) (251 :: Bytes.ofU2 delta)
  | append (delta : UInt16) {tag : UInt8} {types : List VType} {row : Bytes} (low : 252 ≤ tag.toNat)
      (high : tag.toNat ≤ 254) (count : types.length = tag.toNat - 251)
      (h : Bytes.Row (SpelledType pool) types row) :
      SpelledFrame pool (delta.toNat, .append types) (tag :: (Bytes.ofU2 delta ++ row))
  | full (delta : UInt16) {locals stack : List VType} {front back : Bytes}
      (hlocals : Bytes.Counted (SpelledType pool) locals front)
      (hstack : Bytes.Counted (SpelledType pool) stack back) :
      SpelledFrame pool (delta.toNat, .full locals stack)
        (255 :: (Bytes.ofU2 delta ++ (front ++ back)))

theorem spells_readFrame : Spells (readFrame pool) (SpelledFrame pool) := by
  refine (spells_u1 _).bind fun tag front hfront => ?_
  subst hfront
  dsimp only
  -- The branches of the reader in their order; each gives one way to spell a frame.
  split
  · next high => exact spells_pure (.same high)
  split
  · next low high =>
    refine spells_readVType.bind fun type bytes h => spells_pure ?_
    rw [List.append_nil]
    exact .sameWithOne (Nat.lt_of_not_le low) high h
  split
  · exact spells_malformed _
  next hlow =>
  -- From here on, the step has a field of its own.
  refine (spells_u2 _).bind fun delta front hfront => ?_
  subst hfront
  split
  · next htag =>
    obtain rfl : tag = 247 := UInt8.toNat_inj.mp htag
    refine spells_readVType.bind fun type bytes h => spells_pure ?_
    rw [List.append_nil]
    exact .sameWithOneFar delta h
  split
  · next hne high => exact spells_pure (.chop delta (by omega) high)
  split
  · next htag =>
    obtain rfl : tag = 251 := UInt8.toNat_inj.mp htag
    exact spells_pure (.sameFar delta)
  split
  · next high =>
    refine (spells_many spells_readVType _).bind fun types row h => spells_pure ?_
    rw [List.append_nil]
    exact .append delta (by omega) high h.1 h.2
  · have htag := tag.toNat_lt
    obtain rfl : tag = 255 := UInt8.toNat_inj.mp (show tag.toNat = 255 by omega)
    refine Spells.counted_bind spells_readVType fun locals front hlocals =>
      Spells.counted_bind spells_readVType fun stack back hstack => spells_pure ?_
    rw [List.append_nil]
    exact .full delta hlocals hstack

theorem reads_readFrame (p : Nat × Frame) (bytes : Bytes) (h : SpelledFrame pool p bytes) :
    Reads (readFrame pool) bytes p := by
  unfold readFrame
  -- The ranges of the tag are disjoint, so each spelling takes one branch of the reader.
  cases h with
  | same high =>
    refine (reads_u1 _ _).bind_nil ?_
    simp only [high, ↓reduceIte]
    exact reads_pure _
  | @sameWithOne tag type bytes low high h =>
    refine (reads_u1 _ _).bind (q := bytes) ?_
    have hlow : ¬ tag.toNat ≤ 63 := by omega
    simp only [hlow, high, ↓reduceIte]
    exact (reads_readVType _ _ h).map _
  | sameWithOneFar delta h =>
    refine (reads_u1 247 _).bind ?_
    simp only [UInt8.reduceToNat, Nat.reduceLeDiff, Nat.reduceLT, ↓reduceIte]
    exact (reads_u2 delta _).bind ((reads_readVType _ _ h).map _)
  | @chop delta tag low high =>
    refine (reads_u1 _ _).bind (q := Bytes.ofU2 delta) ?_
    have h1 : ¬ tag.toNat ≤ 63 := by omega
    have h2 : ¬ tag.toNat ≤ 127 := by omega
    have h3 : ¬ tag.toNat < 247 := by omega
    have h4 : ¬ tag.toNat = 247 := by omega
    simp only [h1, h2, h3, h4, high, ↓reduceIte]
    exact (reads_u2 delta _).map _
  | sameFar delta =>
    refine (reads_u1 251 _).bind ?_
    simp only [UInt8.reduceToNat, Nat.reduceLeDiff, Nat.reduceLT, Nat.reduceEqDiff, ↓reduceIte]
    exact (reads_u2 delta _).map _
  | @append delta tag types row low high count h =>
    refine (reads_u1 _ _).bind (q := Bytes.ofU2 delta ++ row) ?_
    have h1 : ¬ tag.toNat ≤ 63 := by omega
    have h2 : ¬ tag.toNat ≤ 127 := by omega
    have h3 : ¬ tag.toNat < 247 := by omega
    have h4 : ¬ tag.toNat = 247 := by omega
    have h5 : ¬ tag.toNat ≤ 250 := by omega
    have h6 : ¬ tag.toNat = 251 := by omega
    simp only [h1, h2, h3, h4, h5, h6, high, ↓reduceIte]
    refine (reads_u2 delta _).bind ?_
    rw [← count]
    exact (reads_row reads_readVType h).map _
  | @full delta locals stack front back hlocals hstack =>
    refine (reads_u1 255 _).bind ?_
    simp only [UInt8.reduceToNat, Nat.reduceLeDiff, Nat.reduceLT, Nat.reduceEqDiff, ↓reduceIte]
    refine (reads_u2 delta _).bind (Reads.counted_bind reads_readVType hlocals ?_)
    rw [← List.append_nil back]
    exact Reads.counted_bind reads_readVType hstack (reads_pure _)

/-- Frames behind the frame at some offset, each inside the code at its step from the frame before
it. -/
inductive SpelledFrames (pool : ConstantPool) (length : Nat) :
    Option Nat → List (Nat × Frame) → Bytes → Prop
  | done {previous : Option Nat} : SpelledFrames pool length previous [] []
  | frame {previous : Option Nat} {delta : Nat} {frame : Frame} {frames : List (Nat × Frame)}
      {front back : Bytes} (here : SpelledFrame pool (delta, frame) front)
      (inside : frameOffset previous delta < length)
      (rest : SpelledFrames pool length (some (frameOffset previous delta)) frames back) :
      SpelledFrames pool length previous ((frameOffset previous delta, frame) :: frames)
        (front ++ back)

/-- A table of frames for code of `length` bytes. -/
def SpelledFrameTable (pool : ConstantPool) (length : Nat) (frames : List (Nat × Frame))
    (bytes : Bytes) : Prop :=
  ∃ (count : UInt16) (row : Bytes), frames.length = count.toNat ∧
    SpelledFrames pool length none frames row ∧ bytes = Bytes.ofU2 count ++ row

/-- As many frames are read as are asked for, and they are spelled one behind the other. -/
theorem spells_readFrames (count : Nat) (previous : Option Nat) :
    Spells (readFrames pool length count previous) fun frames bytes =>
      frames.length = count ∧ SpelledFrames pool length previous frames bytes := by
  induction count generalizing previous with
  | zero => exact spells_pure ⟨rfl, .done⟩
  | succ count ih =>
    refine spells_readFrame.bind fun p front here => Spells.check (spells_malformed _) fun hlt =>
      (ih _).bind fun frames back hback => spells_pure ?_
    rw [List.append_nil]
    exact ⟨congrArg (· + 1) hback.1, .frame here (Nat.lt_of_not_le hlt) hback.2⟩

theorem spells_readFrameTable :
    Spells (readFrameTable pool length) (SpelledFrameTable pool length) := by
  refine (spells_u2 _).bind fun count front hfront => ?_
  refine (spells_readFrames count.toNat none).weaken fun frames row h => ?_
  rw [hfront]
  exact ⟨count, row, h.1, h.2, rfl⟩

/-- Frames that are spelled one behind the other are read back. -/
theorem reads_readFrames {frames : List (Nat × Frame)} {previous : Option Nat}
    (h : SpelledFrames pool length previous frames bytes) :
    Reads (readFrames pool length frames.length previous) bytes frames := by
  induction h with
  | done => exact reads_pure []
  | frame here inside rest ih =>
    refine (reads_readFrame _ _ here).bind ?_
    simp only [Nat.not_le_of_lt inside, ↓reduceIte]
    exact ih.map _

/-- **The spelling of a frame table is read back.** -/
theorem reads_readFrameTable {frames : List (Nat × Frame)}
    (h : SpelledFrameTable pool length frames bytes) :
    Reads (readFrameTable pool length) bytes frames := by
  obtain ⟨count, row, hlength, hrow, rfl⟩ := h
  refine (reads_u2 count _).bind ?_
  rw [← hlength]
  exact reads_readFrames hrow

end RoundingPatch.ClassFile.Body
