import CellMachine.Word

/-!
# Registers

The register file has seventeen slots. A slot holds a plain integer or the address of a cell;
read as a number, an address is the index of its cell.

Three slots have a role: the stack pointer, the stack base and the instruction pointer. The
first two are set as addresses and keep any integer; the instruction pointer is set as a signed
32-bit integer.
-/

namespace CellMachine

/-- What a register slot holds. -/
inductive Value where
  | int (n : Int)
  | address (cell : Int)
  deriving DecidableEq, Repr, Inhabited

namespace Value

/-- The number that a value stands for. -/
def toInt : Value → Int
  | .int n => n
  | .address cell => cell

/-- The value as shown in a register display. -/
def text : Value → String
  | .int n => toString n
  | .address cell => "@" ++ toString cell

end Value

/-- The number of register slots. -/
abbrev slotCount : Nat := 17

/-- A register slot. -/
abbrev Slot := Fin slotCount

namespace Slot

/-- The stack pointer. -/
def sp : Slot := ⟨6, by decide⟩

/-- The stack base. -/
def bp : Slot := ⟨7, by decide⟩

/-- The instruction pointer. -/
def ip : Slot := ⟨8, by decide⟩

/-- The names of the slots in source text. -/
def names : Vector String slotCount :=
  #v["eax", "ebx", "ecx", "edx", "esi", "edi", "esp", "ebp", "eip", "r08", "r09", "r10", "r11",
     "r12", "r13", "r14", "r15"]

/-- The names of the slots in a register display. -/
def displayNames : Vector String slotCount :=
  #v["EAX", "EBX", "ECX", "EDX", "ESI", "EDI", "ESP", "EBP", "EIP", "R08", "R09", "R10", "R11",
     "R12", "R13", "R14", "R15"]

/-- The name of a slot in source text. -/
def name (s : Slot) : String := names[s.val]

/-- The slot of a name in source text. -/
def ofName? (name : String) : Option Slot :=
  (List.finRange slotCount).find? fun s => s.name = name

end Slot

/-- The seventeen register slots. -/
structure RegisterFile where
  slots : Vector Value slotCount
  deriving DecidableEq, Repr

namespace RegisterFile

/-- Every slot holds the integer zero. -/
def initial : RegisterFile := ⟨Vector.replicate slotCount (.int 0)⟩

def get (r : RegisterFile) (s : Slot) : Value := r.slots[s.val]

/-- Store a value as it is. -/
def set (r : RegisterFile) (s : Slot) (v : Value) : RegisterFile := ⟨r.slots.set s.val v⟩

def readInt (r : RegisterFile) (s : Slot) : Int := (r.get s).toInt

/-- Store the signed 32-bit word of a number. -/
def writeInt (r : RegisterFile) (s : Slot) (n : Int) : RegisterFile :=
  r.set s (.int (Word.wrap n))

@[simp] theorem get_initial (s : Slot) : initial.get s = .int 0 := by
  simp [initial, get]

@[simp] theorem get_set_self (r : RegisterFile) (s : Slot) (v : Value) :
    (r.set s v).get s = v := by
  simp [get, set]

theorem get_set_of_ne (r : RegisterFile) {s t : Slot} (v : Value) (h : s ≠ t) :
    (r.set s v).get t = r.get t := by
  have h' : s.val ≠ t.val := fun e => h (Fin.ext e)
  simp [get, set, h']

/-! ### Roles -/

def sp (r : RegisterFile) : Int := r.readInt Slot.sp

def bp (r : RegisterFile) : Int := r.readInt Slot.bp

def ip (r : RegisterFile) : Int := r.readInt Slot.ip

def setSp (r : RegisterFile) (cell : Int) : RegisterFile := r.set Slot.sp (.address cell)

def setBp (r : RegisterFile) (cell : Int) : RegisterFile := r.set Slot.bp (.address cell)

def setIp (r : RegisterFile) (index : Int) : RegisterFile := r.writeInt Slot.ip index

/-! ### Display -/

/-- One line with the name and value of every slot. -/
def display (r : RegisterFile) : String :=
  " ".intercalate
    ((Slot.displayNames.toList.zip r.slots.toList).map fun (name, v) => name ++ "=" ++ v.text)

end RegisterFile

end CellMachine
