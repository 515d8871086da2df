import RoundingPatch.Proofs.ClassFile.Code.Bodies
import RoundingPatch.Proofs.ClassFile.Code.Rows
import RoundingPatch.Proofs.ClassFile.Copy
/-!
# What stands in the bytes of a Code attribute

The bytes of a `Code` attribute spell its limits, its code, its handlers and the rows of its
tables (`Contents.Spelled`). Bytes may be left over, behind the rows of each table and behind the
last table. Every attribute that is read spells some contents (`exists_contents`), and a body is
read from contents row by row, without a look at what is left over (`read_of_spelled`).
-/

namespace RoundingPatch

namespace Read

variable {α : Type} {r : Read α} {p : α → Bytes → Prop} {a : α} {bytes front rest : Bytes}

/-- `r` reads a value off the front of some bytes and leaves the rest. -/
def Leaves (r : Read α) (bytes : Bytes) (a : α) (rest : Bytes) : Prop :=
  ∃ pos, r (Cursor.start bytes) = .ok (a, ⟨pos, rest, 0⟩)

/-- What reads a front leaves what lies behind it. -/
theorem Reads.leaves (h : Reads r front a) (rest : Bytes) : Leaves r (front ++ rest) a rest :=
  ⟨_, h 0 rest⟩

theorem Leaves.runOn (h : Leaves r bytes a rest) : runOn r bytes = .ok a := by
  obtain ⟨pos, h⟩ := h
  exact runOn_eq_ok.mpr ⟨_, h⟩

/-- A file is a spelling with some bytes behind it. -/
theorem Spells.exists_of_runOn (h : Spells r p) (hr : Read.runOn r bytes = .ok a) :
    ∃ front rest, bytes = front ++ rest ∧ p a front := by
  obtain ⟨c, hc⟩ := runOn_eq_ok.mp hr
  obtain ⟨front, hrest, -, hp⟩ := h _ _ _ rfl hc
  exact ⟨front, c.rest, hrest, hp⟩

/-- A reader in front of others consumes what it is known to read. -/
theorem Reads.run_bind {β : Type} {f : α → Read β} (h : Reads r front a) (pos : Nat) :
    (r >>= f) ⟨pos, front ++ rest, 0⟩ = f a ⟨pos + front.length, rest, 0⟩ :=
  bind_of_ok (h pos rest)

end Read

namespace ClassFile.Body

open Read

variable {pool : ConstantPool} {length : Nat}

/-! ### Tables -/

/-- The rows of a table among the attributes of the code. -/
inductive Rows
  | lines (rows : List (Nat × UInt16))
  | locals (table : LocalTable) (rows : List LocalVariable)
  | frames (rows : List (Nat × Frame))

namespace Rows

/-- The name of the attribute that holds a table. -/
def name : Rows → String
  | .lines _ => "LineNumberTable"
  | .locals table _ => Layout.localsName table
  | .frames _ => "StackMapTable"

/-- Bytes that spell the rows of a table. -/
def Spelled (pool : ConstantPool) (length : Nat) : Rows → Bytes → Prop
  | .lines rows => Bytes.Counted SpelledLine rows
  | .locals table rows => Bytes.Counted (SpelledLocal pool table) rows
  | .frames rows => SpelledFrameTable pool length rows

/-- The reader of a table reads its rows off the front of some bytes and leaves the rest. -/
def Leaves (pool : ConstantPool) (length : Nat) : Rows → Bytes → Bytes → Prop
  | .lines rows => fun bytes => Read.Leaves readLines bytes rows
  | .locals table rows => fun bytes => Read.Leaves (readLocals pool table) bytes rows
  | .frames rows => fun bytes => Read.Leaves (readFrameTable pool length) bytes rows

/-- The line numbers of a table. -/
def lineRows : Rows → List (Nat × UInt16)
  | .lines rows => rows
  | _ => []

/-- The local variables of a table. -/
def localRows : Rows → List LocalVariable
  | .locals _ rows => rows
  | _ => []

/-- The stack map frames of a table. -/
def frameRows : Rows → List (Nat × Frame)
  | .frames rows => rows
  | _ => []

/-- A body with the rows of another table. -/
def addTo (rows : Rows) (body : Body) : Body :=
  { body with
    lines := body.lines ++ rows.lineRows
    locals := body.locals ++ rows.localRows
    frames := body.frames ++ rows.frameRows }

theorem leaves_of_spelled {rows : Rows} {front : Bytes} (h : rows.Spelled pool length front)
    (rest : Bytes) : rows.Leaves pool length (front ++ rest) rest := by
  cases rows with
  | lines rows => exact (reads_readLines h).leaves rest
  | locals table rows => exact (reads_readLocals h).leaves rest
  | frames rows => exact (reads_readFrameTable h).leaves rest

end Rows

/-- A table in the bytes of its attribute. -/
structure Table where
  rows : Rows
  /-- The bytes of the attribute. -/
  info : Bytes
  /-- The bytes behind the rows. -/
  rest : Bytes

namespace Table

/-- The attribute that holds a table. -/
def raw (t : Table) : RawAttribute :=
  ⟨t.rows.name, t.info⟩

/-- The bytes of the attribute spell the rows, up to those that are left over. -/
def Spelled (pool : ConstantPool) (length : Nat) (t : Table) : Prop :=
  ∃ front, t.rows.Spelled pool length front ∧ t.info = front ++ t.rest

variable {t : Table} {body next : Body} {attr : RawAttribute}

theorem Spelled.leaves (h : t.Spelled pool length) : t.rows.Leaves pool length t.info t.rest := by
  obtain ⟨front, hfront, hinfo⟩ := h
  rw [hinfo]
  exact Rows.leaves_of_spelled hfront t.rest

/-- **A table is added** with the rows that are spelled. -/
theorem addTable_of_spelled (h : t.Spelled pool body.length) :
    addTable pool body t.raw = .ok (t.rows.addTo body) := by
  have hleaves := h.leaves
  rcases t with ⟨rows, info, rest⟩
  have hadd {next : Body} {answer : Except Fault Body} (hnext : answer = .ok next)
      (heq : next = rows.addTo body) : answer = .ok (rows.addTo body) := heq ▸ hnext
  -- Which table it is decides which rows are added and which are empty.
  cases rows with
  | lines rows =>
    refine hadd (except_bind_eq_ok.mpr ⟨rows, hleaves.runOn, rfl⟩) ?_
    simp [Rows.addTo, Rows.lineRows, Rows.localRows, Rows.frameRows]
  | locals table rows =>
    cases table <;>
    · refine hadd (except_bind_eq_ok.mpr ⟨rows, hleaves.runOn, rfl⟩) ?_
      simp [Rows.addTo, Rows.lineRows, Rows.localRows, Rows.frameRows]
  | frames rows =>
    refine hadd (except_bind_eq_ok.mpr ⟨rows, hleaves.runOn, rfl⟩) ?_
    simp [Rows.addTo, Rows.lineRows, Rows.localRows, Rows.frameRows]

/-- What is added is spelled by the bytes of the attribute. -/
theorem exists_of_addTable (h : addTable pool body attr = .ok next) : ∃ t : Table,
    t.raw = attr ∧ t.Spelled pool body.length ∧ next = t.rows.addTo body := by
  -- The attribute is made of the bytes of the rows and of those left over.
  have htable {rows : Rows} (hname : attr.name = rows.name) (hnext : next = rows.addTo body)
      (hrows : ∃ front rest, attr.info = front ++ rest ∧ rows.Spelled pool body.length front) :
      ∃ t : Table, t.raw = attr ∧ t.Spelled pool body.length ∧ next = t.rows.addTo body := by
    obtain ⟨front, rest, hinfo, hfront⟩ := hrows
    refine ⟨⟨rows, attr.info, rest⟩, ?_, ⟨front, hfront, hinfo⟩, hnext⟩
    rw [raw, ← hname]
  unfold addTable at h
  split at h
  · next hname =>
    obtain ⟨lines, hread, h⟩ := except_bind_eq_ok.mp h
    cases h
    refine @htable (.lines lines) hname ?_ (spells_readLines.exists_of_runOn hread)
    simp [Rows.addTo, Rows.lineRows, Rows.localRows, Rows.frameRows]
  · next hname =>
    obtain ⟨locals, hread, h⟩ := except_bind_eq_ok.mp h
    cases h
    refine @htable (.locals .descriptors locals) hname ?_
      ((spells_readLocals _).exists_of_runOn hread)
    simp [Rows.addTo, Rows.lineRows, Rows.localRows, Rows.frameRows]
  · next hname =>
    obtain ⟨locals, hread, h⟩ := except_bind_eq_ok.mp h
    cases h
    refine @htable (.locals .signatures locals) hname ?_
      ((spells_readLocals _).exists_of_runOn hread)
    simp [Rows.addTo, Rows.lineRows, Rows.localRows, Rows.frameRows]
  · next hname =>
    obtain ⟨frames, hread, h⟩ := except_bind_eq_ok.mp h
    cases h
    refine @htable (.frames frames) hname ?_ (spells_readFrameTable.exists_of_runOn hread)
    simp [Rows.addTo, Rows.lineRows, Rows.localRows, Rows.frameRows]
  · cases h

end Table

/-! ### Whole attributes -/

/-- What stands in the bytes of a `Code` attribute. -/
structure Contents where
  maxStack : UInt16
  maxLocals : UInt16
  code : Bytes
  handlers : List TryCatch
  tables : List Table
  /-- The bytes behind the last table. -/
  rest : Bytes

/-- An attribute is spelled by the index of its name, its length and its bytes. -/
def SpelledAttribute (pool : ConstantPool) (a : RawAttribute) (bytes : Bytes) : Prop :=
  a.info.length < 4294967296 ∧ ∃ i, pool.utf8 i = .ok a.name ∧ bytes = spelledAttribute i a

theorem reads_readAttribute (a : RawAttribute) (bytes : Bytes) (h : SpelledAttribute pool a bytes) :
    Reads (readAttribute pool) bytes a := by
  obtain ⟨hlength, i, hname, rfl⟩ := h
  rw [spelledAttribute, List.append_assoc]
  refine (reads_u2 i _).bind ((reads_lift hname).bind (p := []) ((reads_u4 _ _).bind
    ((reads_take ?_ _).map _)))
  exact (UInt32.toNat_ofNat_of_lt' hlength).symm

namespace Contents

variable {t : Contents} {b : Body} {info : Bytes}

/-- The line numbers of all tables. -/
def lines (t : Contents) : List (Nat × UInt16) :=
  t.tables.flatMap fun table => table.rows.lineRows

/-- The local variables of all tables. -/
def locals (t : Contents) : List LocalVariable :=
  t.tables.flatMap fun table => table.rows.localRows

/-- The stack map frames of all tables. -/
def frames (t : Contents) : List (Nat × Frame) :=
  t.tables.flatMap fun table => table.rows.frameRows

/-- The body with these contents and some instructions. -/
def body (t : Contents) (insns : List (Nat × Insn)) : Body where
  maxStack := t.maxStack
  maxLocals := t.maxLocals
  length := t.code.length
  insns := insns
  handlers := t.handlers
  lines := t.lines
  locals := t.locals
  frames := t.frames

/-- Bytes that spell some contents, up to those that are left over at their end. -/
def SpelledUpTo (pool : ConstantPool) (t : Contents) (bytes : Bytes) : Prop :=
  ∃ (length : UInt32) (handlers attributes : Bytes),
    t.code.length = length.toNat ∧ 0 < t.code.length ∧ t.code.length < 65536 ∧
    Bytes.Counted (SpelledHandler pool) t.handlers handlers ∧
    (∀ table ∈ t.tables, table.Spelled pool t.code.length) ∧
    Bytes.Counted (SpelledAttribute pool) (t.tables.map Table.raw) attributes ∧
    bytes = Bytes.ofU2 t.maxStack ++ (Bytes.ofU2 t.maxLocals ++ (Bytes.ofU4 length
      ++ (t.code ++ (handlers ++ attributes))))

/-- The bytes of a `Code` attribute spell some contents. -/
def Spelled (pool : ConstantPool) (t : Contents) (info : Bytes) : Prop :=
  ∃ front, t.SpelledUpTo pool front ∧ info = front ++ t.rest

/-- Tables that are spelled add their rows, each kind in the order of the tables. -/
theorem foldlM_tables {tables : List Table} {body : Body}
    (h : ∀ table ∈ tables, table.Spelled pool body.length) :
    (tables.map Table.raw).foldlM (addTable pool) body = .ok { body with
      lines := body.lines ++ tables.flatMap fun table => table.rows.lineRows
      locals := body.locals ++ tables.flatMap fun table => table.rows.localRows
      frames := body.frames ++ tables.flatMap fun table => table.rows.frameRows } := by
  induction tables generalizing body with
  | nil => simp [pure, Except.pure]
  | cons table tables ih =>
    rw [List.forall_mem_cons] at h
    rw [List.map_cons, List.foldlM_cons, Table.addTable_of_spelled h.1]
    show (tables.map Table.raw).foldlM (addTable pool) (table.rows.addTo body) = _
    rw [@ih (table.rows.addTo body) h.2]
    simp [Rows.addTo]

/-- Attributes that can be added to a body are spelled tables. -/
theorem exists_tables {attrs : List RawAttribute} {body last : Body}
    (h : attrs.foldlM (addTable pool) body = .ok last) : ∃ tables : List Table,
      tables.map Table.raw = attrs ∧ ∀ table ∈ tables, table.Spelled pool body.length := by
  induction attrs generalizing body with
  | nil => exact ⟨[], rfl, nofun⟩
  | cons attr attrs ih =>
    rw [List.foldlM_cons] at h
    obtain ⟨next, hadd, h⟩ := except_bind_eq_ok.mp h
    obtain ⟨table, rfl, hspelled, rfl⟩ := Table.exists_of_addTable hadd
    obtain ⟨tables, rfl, htables⟩ := ih h
    exact ⟨table :: tables, rfl, List.forall_mem_cons.mpr ⟨hspelled, htables⟩⟩

/-- **Whatever is read as a body** spells some contents. -/
theorem spells_read : Spells (read pool) fun _ bytes =>
    ∀ rest, ∃ t : Contents, t.rest = rest ∧ t.SpelledUpTo pool bytes := by
  refine (spells_u2 _).bind fun maxStack b1 h1 => (spells_u2 _).bind fun maxLocals b2 h2 =>
    (spells_u4 _).bind fun length b3 h3 => Spells.check (spells_malformed _) fun hlength =>
    (spells_take _ _).bind fun code b4 h4 => (spells_lift _).bind fun insns b5 h5 =>
    Spells.counted_bind spells_readHandler fun handlers b6 h6 =>
    (spells_counted spells_readAttribute _).bind fun attrs b7 h7 =>
    (spells_lift _).bind fun body b8 h8 => (spells_lift _).bind fun _ b9 h9 => spells_pure ?_
  intro rest
  obtain ⟨hcode, rfl⟩ := h4
  -- The attributes that were read are the tables of the contents.
  obtain ⟨tables, rfl, htables⟩ := exists_tables h8.1
  rw [not_or, Nat.not_le] at hlength
  refine ⟨⟨maxStack, maxLocals, b4, handlers, tables, rest⟩, rfl, length, b6, b7, hcode,
    Nat.pos_of_ne_zero (hcode ▸ hlength.1), hcode ▸ hlength.2, h6, hcode ▸ htables, h7, ?_⟩
  rw [h1, h2, h3, h5.2, h8.2, h9.2]
  simp

/-- **The bytes of a body have contents**: whatever is read off them is spelled by them. -/
theorem exists_contents (h : parse pool info = .ok b) : ∃ t : Contents, t.Spelled pool info := by
  obtain ⟨front, rest, rfl, hfront⟩ := spells_read.exists_of_runOn h
  obtain ⟨t, rfl, ht⟩ := hfront rest
  exact ⟨t, front, ht, rfl⟩

/-- **A body is read from the contents** that its bytes spell, and what is left over is not looked
at. -/
theorem read_of_spelled (ht : t.Spelled pool info) (h : parse pool info = .ok b) :
    Leaves (read pool) info b t.rest ∧
      ∃ insns, decodeInsns pool t.code = .ok insns ∧ b = t.body insns := by
  obtain ⟨c, h⟩ := runOn_eq_ok.mp h
  suffices hread : (∃ pos, c = ⟨pos, t.rest, 0⟩) ∧
      ∃ insns, decodeInsns pool t.code = .ok insns ∧ b = t.body insns by
    obtain ⟨⟨pos, rfl⟩, hread⟩ := hread
    exact ⟨⟨pos, h⟩, hread⟩
  obtain ⟨_, ⟨length, _, attributes, hcode, hpos, hlt, hhandlers, htables, hattributes, rfl⟩,
    rfl⟩ := ht
  obtain ⟨count, row, hcount, hrow, rfl⟩ := hhandlers
  have hattrs := reads_counted reads_readAttribute hattributes "attributes_count"
  have hlength : ¬ (length.toNat = 0 ∨ 65536 ≤ length.toNat) := by omega
  have htables : ∀ table ∈ t.tables, table.Spelled pool length.toNat := hcode ▸ htables
  simp only [Cursor.start, List.append_assoc] at h
  unfold read at h
  -- Every reader in front of the tables consumes the bytes that are spelled for it.
  rw [(reads_u2 t.maxStack _).run_bind, (reads_u2 t.maxLocals _).run_bind,
    (reads_u4 length _).run_bind] at h
  simp only [hlength, ↓reduceIte] at h
  rw [(reads_take hcode _).run_bind] at h
  obtain ⟨insns, _, hlift, h⟩ := bind_eq_ok.mp h
  obtain ⟨hinsns, rfl⟩ := lift_eq_ok.mp hlift
  rw [(reads_u2 count _).run_bind, ← hcount, (reads_row reads_readHandler hrow).run_bind,
    Reads.run_bind (r := readAttributes pool) hattrs] at h
  -- The tables only look at the attributes, and the check of the offsets at nothing but the body.
  obtain ⟨last, _, hlift, h⟩ := bind_eq_ok.mp h
  obtain ⟨hlast, rfl⟩ := lift_eq_ok.mp hlift
  rw [foldlM_tables htables] at hlast
  cases hlast
  obtain ⟨_, _, hcheck, h⟩ := bind_eq_ok.mp h
  obtain ⟨-, rfl⟩ := lift_eq_ok.mp hcheck
  obtain ⟨rfl, rfl⟩ := pure_eq_ok.mp h
  exact ⟨⟨_, rfl⟩, insns, hinsns, by simp [body, lines, locals, frames, hcode]⟩

end Contents

end ClassFile.Body

end RoundingPatch
