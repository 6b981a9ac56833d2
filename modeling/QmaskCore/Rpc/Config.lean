import QmaskCore.Lib.AssocList
import QmaskCore.Lib.KeyValue
import QmaskCore.Lib.Scan
import QmaskCore.Net.AddrMan

/-!
The node's reading of `moneu.conf`.

`Config.load` keeps the last value of each key, whatever the case the key is written in,
and takes the RPC settings from what it has kept. `Sets` says which lines give a key a
value, and `rpcUser_load`, `rpcPassword_load` and `rpcPort_load` that the last of these
lines counts. The other groups of settings are left out.
-/

namespace QmaskCore

open Scan

namespace Config

/-- What `Trim` cuts off. -/
def blank (b : UInt8) : Bool := b = 32 || b = 9 || b = 13 || b = 10

def trim (str : List UInt8) : List UInt8 := StdString.trim blank blank str

def toLower (str : List UInt8) : List UInt8 := str.map StdString.toLower

def isListKey (key : List UInt8) : Bool :=
  key = text "addnode" || key = text "connect" || key = text "rpcallowip" || key = text "seednode"

end Config

structure RPCConfig where
  rpcUser : List UInt8
  rpcPassword : List UInt8
  rpcBindAddr : List UInt8
  rpcPort : UInt16
  rpcEnabled : Bool
  rpcAllowIp : List (List UInt8)
  rpcBindSet : Bool
  rpcAllowIpSet : Bool

structure Config where
  mRPC : RPCConfig
  mRawValues : AList fun _ : List UInt8 => List UInt8
  mRawLists : AList fun _ : List UInt8 => List (List UInt8)

namespace Config

def parseLine (line : List UInt8) : Option (List UInt8 × List UInt8) :=
  let trimmed := trim line
  if trimmed = [] then none
  else if trimmed.head? = some 35 then none
  else if trimmed.head? = some 91 then none
  else
    match trimmed.idxOf? 61 with
    | none => none
    | some pos =>
        let key := trim (trimmed.take pos)
        let value := trim (trimmed.drop (pos + 1))
        if key = [] then none else some (key, value)

def getValue (c : Config) (key defaultVal : List UInt8) : List UInt8 :=
  (c.mRawValues.lookup (toLower key)).getD defaultVal

/-- What `stoll` throws at is the default. -/
def getIntValue (c : Config) (key : List UInt8) (defaultVal : Int) : Int :=
  let val := c.getValue key []
  if val = [] then defaultVal
  else
    match signed 64 val with
    | some (n, _) => n
    | none => defaultVal

def getListValues (c : Config) (key : List UInt8) : List (List UInt8) :=
  (c.mRawLists.lookup (toLower key)).getD []

def applyValue (c : Config) (key value : List UInt8) : Config :=
  let k := toLower key
  if isListKey k then
    { c with
      mRawLists := c.mRawLists.insert k ((c.mRawLists.lookup k).getD [] ++ [value])
      mRawValues := c.mRawValues.insert k value }
  else { c with mRawValues := c.mRawValues.insert k value }

section

-- `NetParams::RPC_PORT`.
variable (defaultPort : UInt16)

def new : Config where
  mRPC := ⟨[], [], text "127.0.0.1", defaultPort, true, [], false, false⟩
  mRawValues := ∅
  mRawLists := ∅

def applyRPCValues (c : Config) : Config :=
  let rpcUser := c.getValue (text "rpcuser") []
  let rpcPassword := c.getValue (text "rpcpassword") []
  let rpcPort := c.getIntValue (text "rpcport") defaultPort.toNat
  let rpcAllowIp := c.mRPC.rpcAllowIp ++
    (c.getListValues (text "rpcallowip")).filter fun ip => decide (ip ≠ [])
  { c with
    mRPC :=
      { rpcUser, rpcPassword
        rpcEnabled := decide (rpcUser ≠ []) && decide (rpcPassword ≠ [])
        rpcBindAddr := c.getValue (text "rpcbind") (text "127.0.0.1")
        rpcBindSet := decide (c.getValue (text "rpcbind") [] ≠ [])
        rpcPort :=
          if 0 < rpcPort ∧ rpcPort < 65536 then UInt16.ofNat rpcPort.toNat else c.mRPC.rpcPort
        rpcAllowIpSet := decide (rpcAllowIp ≠ [])
        rpcAllowIp := if rpcAllowIp = [] then [text "127.0.0.1"] else rpcAllowIp } }

def loadLine (c : Config) (line : List UInt8) : Config :=
  match parseLine line with
  | none => c
  | some (key, value) => c.applyValue key value

/-- `Load`; there may be no file. -/
def load (file : Option (List UInt8)) (c : Config) : Config :=
  match file with
  | none => c.applyRPCValues defaultPort
  | some content => ((AddrMan.getlines content []).foldl loadLine c).applyRPCValues defaultPort

end

/-! ### Which lines count -/

/-- The line gives the key this value, the key being written in any case. -/
def Sets (k line value : List UInt8) : Prop :=
  ∃ key, toLower key = k ∧ KeyValue.Assigns blank blank line key value

/-- The number a value begins with is a port. -/
def Names (value : List UInt8) (port : Nat) : Prop :=
  ∃ rest, number value = some (false, port, rest) ∧ 0 < port ∧ port < 65536

/-- The port of the last line that sets one, if it names one. -/
def SetsPort (defaultPort : UInt16) (lines : List (List UInt8)) (port : Nat) : Prop :=
  ∃ value, KeyValue.LastOr (Sets (text "rpcport")) lines [] value ∧
    (Names value port ∨ (∀ p, ¬ Names value p) ∧ port = defaultPort.toNat)

/-- The value of a key in a line. -/
def valueIn (k line : List UInt8) : Option (List UInt8) :=
  (parseLine line).bind fun p => if toLower p.1 = k then some p.2 else none

/-- A key that is neither a comment nor a section. -/
structure Plain (k : List UInt8) : Prop where
  lower : toLower k = k
  some : k ≠ []
  noComment : k.head? ≠ .some 35
  noSection : k.head? ≠ .some 91

theorem plain_rpcuser : Plain (text "rpcuser") := by
  refine ⟨?_, ?_, ?_, ?_⟩ <;> decide

theorem plain_rpcpassword : Plain (text "rpcpassword") := by
  refine ⟨?_, ?_, ?_, ?_⟩ <;> decide

theorem plain_rpcport : Plain (text "rpcport") := by
  refine ⟨?_, ?_, ?_, ?_⟩ <;> decide

section

variable {k line key value : List UInt8} {defaultPort : UInt16}

theorem parseLine_eq_some_iff : parseLine line = some (key, value) ↔
    (trim line).head? ≠ some 35 ∧ (trim line).head? ≠ some 91 ∧ key ≠ [] ∧
      KeyValue.Assigns blank blank line key value := by
  have cuts : parseLine line = some (key, value) ↔
      (trim line).head? ≠ some 35 ∧ (trim line).head? ≠ some 91 ∧ key ≠ [] ∧
        KeyValue.cut blank blank (trim line) = some (key, value) := by
    rw [parseLine, KeyValue.cut]
    by_cases empty : trim line = []
    · simp [empty]
    by_cases comment : (trim line).head? = some 35
    · simp [comment, empty]
    by_cases opens : (trim line).head? = some 91
    · simp [opens, empty]
    rw [if_neg empty, if_neg comment, if_neg opens, and_iff_right comment, and_iff_right opens]
    cases (trim line).idxOf? 61 with
    | none => simp
    | some pos =>
        dsimp only
        rw [Option.ite_none_left_eq_some, Option.map_some]
        constructor
        · rintro ⟨keyed, ⟨⟩⟩
          exact ⟨keyed, rfl⟩
        · rintro ⟨keyed, ⟨⟩⟩
          exact ⟨keyed, rfl⟩
  rw [cuts, KeyValue.cut_eq_some_iff rfl rfl]
  refine and_congr_right fun _ => and_congr_right fun _ => and_congr_right fun some => ?_
  exact KeyValue.assigns_trim_iff rfl some

/-- The first character of a line that sets a key is that of the key. -/
theorem head_of_sets (plain : Plain k) (lower : toLower key = k)
    (assigns : KeyValue.Assigns blank blank line key value) :
    (trim line).head? ≠ some 35 ∧ (trim line).head? ≠ some 91 ∧ key ≠ [] := by
  have keyed : key ≠ [] := by
    rintro rfl
    exact plain.some lower.symm
  obtain ⟨x, key, rfl⟩ := List.exists_cons_of_ne_nil keyed
  have first : (trim line).head? = some x := by
    obtain ⟨_, _, _, _, _, bare⟩ := StdString.exists_trim blank blank line
    obtain ⟨a, b, c, d, whole, blankA, _⟩ := (KeyValue.assigns_trim_iff rfl keyed).mpr assigns
    change trim line = _ at whole
    cases a with
    | nil => rw [whole]; rfl
    | cons y a =>
        have solid := bare.head y (by change (trim line).head? = _; rw [whole]; rfl)
        rw [blankA y List.mem_cons_self] at solid
        cases solid
  have head : k.head? = some (StdString.toLower x) := by
    rw [← lower]
    rfl
  rw [first]
  refine ⟨?_, ?_, keyed⟩
  · rintro ⟨⟩
    exact plain.noComment head
  · rintro ⟨⟩
    exact plain.noSection head

theorem valueIn_eq_some_iff (plain : Plain k) (line value : List UInt8) :
    valueIn k line = some value ↔ Sets k line value := by
  rw [valueIn, Option.bind_eq_some_iff]
  constructor
  · rintro ⟨⟨key, v⟩, parsed, same⟩
    obtain ⟨lower, given⟩ := Option.ite_none_right_eq_some.mp same
    cases given
    exact ⟨key, lower, (parseLine_eq_some_iff.mp parsed).2.2.2⟩
  · rintro ⟨key, lower, assigns⟩
    obtain ⟨comment, opens, some⟩ := head_of_sets plain lower assigns
    exact ⟨(key, value), parseLine_eq_some_iff.mpr ⟨comment, opens, some, assigns⟩, if_pos lower⟩

/-- A line overrides what was there. -/
theorem getValue_loadLine (plain : Plain k) (c : Config) (line : List UInt8) :
    (c.loadLine line).getValue k [] = (valueIn k line).getD (c.getValue k []) := by
  rw [loadLine, valueIn]
  cases parseLine line with
  | none => rfl
  | some p =>
      obtain ⟨key, value⟩ := p
      have kept :
          (c.applyValue key value).mRawValues = c.mRawValues.insert (toLower key) value := by
        rw [applyValue]
        split <;> rfl
      dsimp only
      rw [getValue, getValue, kept, AList.lookup_insert_if, plain.lower, Option.bind_some]
      by_cases same : toLower key = k
      · rw [if_pos same.symm, if_pos same]
        rfl
      · rw [if_neg fun eq => same eq.symm, if_neg same]
        rfl

/-- The last line counts. -/
theorem getValue_foldl (plain : Plain k) (lines : List (List UInt8)) :
    (lines.foldl loadLine (new defaultPort)).getValue k [] = value ↔
      KeyValue.LastOr (Sets k) lines [] value := by
  rw [@KeyValue.foldl_override _ _ _ loadLine (fun c => c.getValue k []) (valueIn k) (fun _ => True)
    (fun _ _ _ => trivial) (fun c line _ => getValue_loadLine plain c line) _ _ trivial]
  exact KeyValue.findSome?_reverse_getD_eq_iff (valueIn_eq_some_iff plain)

variable {content : List UInt8}

theorem rpcUser_load : (load defaultPort (some content) (new defaultPort)).mRPC.rpcUser = value ↔
    KeyValue.LastOr (Sets (text "rpcuser")) (AddrMan.getlines content []) [] value :=
  getValue_foldl plain_rpcuser _

theorem rpcPassword_load :
    (load defaultPort (some content) (new defaultPort)).mRPC.rpcPassword = value ↔
      KeyValue.LastOr (Sets (text "rpcpassword")) (AddrMan.getlines content []) [] value :=
  getValue_foldl plain_rpcpassword _

/-- Reading lines changes no setting yet. -/
theorem mRPC_foldl : ∀ {lines : List (List UInt8)} {c : Config},
    (lines.foldl loadLine c).mRPC = c.mRPC := by
  intro lines
  induction lines with
  | nil => exact rfl
  | cons line lines ih =>
      intro c
      rw [List.foldl_cons, ih, loadLine]
      split
      · rfl
      · rw [applyValue]
        split <;> rfl

/-- A number is a port just if it is in the range of ports. -/
theorem names_of_signed {n : Int} {rest : List UInt8} (read : signed 64 value = some (n, rest))
    {port : Nat} : Names value port ↔ n = port ∧ 0 < port ∧ port < 65536 := by
  rw [signed] at read
  rw [Names]
  cases digits : number value with
  | none =>
      rw [digits] at read
      cases read
  | some parsed =>
      obtain ⟨negative, m, rest'⟩ := parsed
      rw [digits] at read
      dsimp only at read
      cases negative with
      | true =>
          obtain ⟨_, given⟩ := Option.ite_none_right_eq_some.mp read
          cases given
          simp
          omega
      | false =>
          rw [if_neg Bool.false_ne_true] at read
          obtain ⟨_, given⟩ := Option.ite_none_right_eq_some.mp read
          cases given
          simp

theorem not_names_of_signed (read : signed 64 value = none) (port : Nat) : ¬ Names value port := by
  rintro ⟨rest, digits, _, small⟩
  rw [signed, digits] at read
  dsimp only at read
  rw [if_neg Bool.false_ne_true, if_pos (by omega)] at read
  cases read

/-- The port taken from a value. -/
theorem port_iff {c : Config} {old : UInt16} {port : Nat} :
    (if 0 < c.getIntValue k old.toNat ∧ c.getIntValue k old.toNat < 65536 then
      UInt16.ofNat (c.getIntValue k old.toNat).toNat else old).toNat = port ↔
    Names (c.getValue k []) port ∨
      (∀ p, ¬ Names (c.getValue k []) p) ∧ port = old.toNat := by
  have default : (if 0 < (old.toNat : Int) ∧ (old.toNat : Int) < 65536 then
      UInt16.ofNat (old.toNat : Int).toNat else old) = old := by
    rw [Int.toNat_natCast, UInt16.ofNat_toNat, ite_self]
  rw [getIntValue]
  generalize c.getValue k [] = v
  -- Where no port is named the old one stays.
  have stays (none : ∀ p, ¬ Names v p) : old.toNat = port ↔
      Names v port ∨ (∀ p, ¬ Names v p) ∧ port = old.toNat := by
    rw [or_iff_right (none port), and_iff_right none, eq_comm]
  by_cases empty : v = []
  · simp only [if_pos empty, default]
    refine stays fun p => ?_
    rintro ⟨rest, read, _⟩
    rw [empty] at read
    cases read
  · simp only [if_neg empty]
    cases read : signed 64 v with
    | none =>
        simp only [default]
        exact stays (not_names_of_signed read)
    | some parsed =>
        obtain ⟨n, rest⟩ := parsed
        have names := @names_of_signed v n rest read
        dsimp only
        split
        · rename_i inside
          have port_eq : (UInt16.ofNat n.toNat).toNat = n.toNat := by
            rw [UInt16.toNat_ofNat', Nat.mod_eq_of_lt (by omega)]
          have named : Names v n.toNat := names.mpr (by omega)
          rw [port_eq, names]
          constructor
          · intro same
            exact .inl (by omega)
          · rintro (here | ⟨none, _⟩)
            · omega
            · exact absurd named (none _)
        · rename_i outside
          refine stays fun p named => ?_
          have here := names.mp named
          omega

theorem rpcPort_load {port : Nat} :
    (load defaultPort (some content) (new defaultPort)).mRPC.rpcPort.toNat = port ↔
      SetsPort defaultPort (AddrMan.getlines content []) port := by
  have last := fun value => @getValue_foldl _ value defaultPort plain_rpcport
    (AddrMan.getlines content [])
  have old : ((AddrMan.getlines content []).foldl loadLine (new defaultPort)).mRPC.rpcPort =
      defaultPort := by
    rw [mRPC_foldl]
    rfl
  simp only [SetsPort, ← last, exists_eq_left']
  rw [← port_iff, load, applyRPCValues]
  simp only [old]

end

end Config

end QmaskCore
