import QmaskCore.Rpc.Config

/-!
The client's reading of `moneu.conf`.

`moneu-cli` reads the node's file with a reader of its own. It cuts a line at `#`, wants
the key as it is, passes over empty values, and keeps the first user and password and
the last port. `Takes` says which lines it reads, and `same_credentials_iff` for which
files it ends with what the node has.
-/

namespace QmaskCore

open Scan KeyValue

namespace Cli

/-- What the client has to log in with. -/
structure Login where
  gRPCPort : Int
  gRPCPortFromArgs : Bool
  gRPCUser : List UInt8
  gRPCPassword : List UInt8

/-- Without arguments. -/
def Login.new : Login := ⟨8328, false, [], []⟩

/-- What `trim` cuts off in front. -/
def front (b : UInt8) : Bool := b = 32 || b = 9

/-- And behind. -/
def back (b : UInt8) : Bool := b = 32 || b = 9 || b = 13 || b = 10

/-- A line up to a comment. -/
def uncommented (line : List UInt8) : List UInt8 :=
  match line.idxOf? 35 with
  | some hash => line.take hash
  | none => line

/-- The key and the value in a line, if there is a value. -/
def configLine (line : List UInt8) : Option (List UInt8 × List UInt8) :=
  let line := uncommented line
  match line.idxOf? 61 with
  | none => none
  | some eq =>
      let key := StdString.trim front back (line.take eq)
      let val := StdString.trim front back (line.drop (eq + 1))
      if val = [] then none else some (key, val)

section

-- What `atoi` gives for a number, with its sign, that is no `int`.
variable (beyond : Bool → Nat → Int)

def atoi (s : List UInt8) : Int :=
  match number s with
  | none => 0
  | some (negative, v, _) =>
      if negative then if v ≤ 2 ^ 31 then -v else beyond negative v
      else if v < 2 ^ 31 then v else beyond negative v

def readLine (g : Login) (line : List UInt8) : Login :=
  match configLine line with
  | none => g
  | some (key, val) =>
      if key = text "rpcuser" ∧ g.gRPCUser = [] then { g with gRPCUser := val }
      else if key = text "rpcpassword" ∧ g.gRPCPassword = [] then { g with gRPCPassword := val }
      else if key = text "rpcport" ∧ g.gRPCPortFromArgs = false then
        let p := atoi beyond val
        if 0 < p ∧ p < 65536 then { g with gRPCPort := p } else g
      else g

/-- `ReadNodeConfig`. -/
def readNodeConfig (content : List UInt8) (g : Login) : Login :=
  (AddrMan.getlines content []).foldl (readLine beyond) g

end

/-! ### Which lines it reads -/

/-- What stands in front of the first `#`. -/
def UpToComment (line cut : List UInt8) : Prop :=
  ∃ rest, line = cut ++ rest ∧ 35 ∉ cut ∧ ∀ b ∈ rest.head?, b = 35

/-- The line gives the key, as it is, a value in front of any comment. -/
def Takes (k line value : List UInt8) : Prop :=
  value ≠ [] ∧ ∃ cut, UpToComment line cut ∧ Assigns front back cut k value

/-- The line gives a number that is a port. -/
def TakesPort (beyond : Bool → Nat → Int) (line : List UInt8) (port : Int) : Prop :=
  ∃ value, Takes (text "rpcport") line value ∧ atoi beyond value = port ∧ 0 < port ∧ port < 65536

/-- The value of a key in a line. -/
def valueIn (k line : List UInt8) : Option (List UInt8) :=
  (configLine line).bind fun p => if p.1 = k then some p.2 else none

def portIn (beyond : Bool → Nat → Int) (line : List UInt8) : Option Int :=
  (valueIn (text "rpcport") line).bind fun value =>
    if 0 < atoi beyond value ∧ atoi beyond value < 65536 then some (atoi beyond value) else none

section

variable {k line value : List UInt8} {beyond : Bool → Nat → Int}

theorem upToComment_iff {cut : List UInt8} : UpToComment line cut ↔ uncommented line = cut := by
  rw [uncommented]
  constructor
  · rintro ⟨rest, rfl, plain, starts⟩
    cases rest with
    | nil => rw [List.append_nil, List.idxOf?_eq_none_iff.mpr plain]
    | cons b rest =>
        rw [starts b rfl, StdString.idxOf?_append_cons plain]
        exact List.take_left
  · intro same
    split at same
    · rename_i hash found
      obtain ⟨whole, plain, _⟩ := StdString.idxOf?_eq_some.mp found
      rw [same] at whole plain
      refine ⟨_, whole, plain, ?_⟩
      rintro b ⟨⟩
      rfl
    · rename_i absent
      rw [← same]
      exact ⟨[], (List.append_nil _).symm, List.idxOf?_eq_none_iff.mp absent, by simp⟩

theorem configLine_eq_some_iff {key : List UInt8} : configLine line = some (key, value) ↔
    value ≠ [] ∧ cut front back (uncommented line) = some (key, value) := by
  rw [configLine, cut]
  cases (uncommented line).idxOf? 61 with
  | none => simp
  | some eq =>
      dsimp only
      rw [Option.ite_none_left_eq_some, Option.map_some]
      constructor
      · rintro ⟨there, ⟨⟩⟩
        exact ⟨there, rfl⟩
      · rintro ⟨there, ⟨⟩⟩
        exact ⟨there, rfl⟩

theorem valueIn_eq_some_iff (k line value : List UInt8) :
    valueIn k line = some value ↔ Takes k line value := by
  have given : valueIn k line = some value ↔ configLine line = some (k, value) := by
    rw [valueIn, Option.bind_eq_some_iff]
    constructor
    · rintro ⟨⟨key, v⟩, parsed, same⟩
      obtain ⟨rfl, given⟩ := Option.ite_none_right_eq_some.mp same
      cases given
      exact parsed
    · exact fun parsed => ⟨(k, value), parsed, if_pos rfl⟩
  rw [given, configLine_eq_some_iff, cut_eq_some_iff rfl rfl, Takes]
  simp only [upToComment_iff, exists_eq_left']

theorem portIn_eq_some_iff (line : List UInt8) (port : Int) :
    portIn beyond line = some port ↔ TakesPort beyond line port := by
  rw [portIn, Option.bind_eq_some_iff, TakesPort]
  refine exists_congr fun value => and_congr (valueIn_eq_some_iff _ _ _) ?_
  rw [Option.ite_none_right_eq_some]
  constructor
  · rintro ⟨inside, ⟨⟩⟩
    exact ⟨rfl, inside⟩
  · rintro ⟨rfl, inside⟩
    exact ⟨inside, rfl⟩

theorem valueIn_ne_nil (k line : List UInt8) : valueIn k line ≠ some [] := fun given =>
  ((valueIn_eq_some_iff k line []).mp given).1 rfl

/-- The first line that gives a value to a key is kept. -/
theorem keep_iff {get : Login → List UInt8} (keep : ∀ g line, get (readLine beyond g line) =
      if get g = [] then (valueIn k line).getD [] else get g)
    {lines : List (List UInt8)} {g : Login} (none : get g = []) (some : value ≠ []) :
    get (lines.foldl (readLine beyond) g) = value ↔ FirstOf (Takes k) lines value := by
  rw [foldl_keep keep (valueIn_ne_nil k) none,
    ← findSome?_eq_some_iff_firstOf (valueIn_eq_some_iff k)]
  cases lines.findSome? (valueIn k) with
  | none => simpa using some.symm
  | some w => simp

/-- What a line does to the login. -/
theorem readLine_spec (g : Login) (line : List UInt8) :
    (readLine beyond g line).gRPCUser = (if g.gRPCUser = [] then
      (valueIn (text "rpcuser") line).getD [] else g.gRPCUser) ∧
    (readLine beyond g line).gRPCPassword = (if g.gRPCPassword = [] then
      (valueIn (text "rpcpassword") line).getD [] else g.gRPCPassword) ∧
    (readLine beyond g line).gRPCPortFromArgs = g.gRPCPortFromArgs ∧
    (g.gRPCPortFromArgs = false →
      (readLine beyond g line).gRPCPort = (portIn beyond line).getD g.gRPCPort) := by
  have apart : text "rpcuser" ≠ text "rpcpassword" ∧ text "rpcuser" ≠ text "rpcport" ∧
      text "rpcpassword" ≠ text "rpcport" := by decide
  have stays (l : List UInt8) : (if l = [] then [] else l) = l := by
    split
    · rename_i empty
      exact empty.symm
    · rfl
  rw [readLine, portIn]
  simp only [valueIn]
  cases configLine line with
  | none => simp [stays]
  | some p =>
      obtain ⟨key, val⟩ := p
      by_cases isUser : key = text "rpcuser"
      · subst isUser
        by_cases none : g.gRPCUser = [] <;> simp [none, apart, stays]
      by_cases isPassword : key = text "rpcpassword"
      · subst isPassword
        by_cases none : g.gRPCPassword = [] <;> simp [none, apart, apart.1.symm, stays]
      by_cases isPort : key = text "rpcport"
      · subst isPort
        by_cases inside : 0 < atoi beyond val ∧ atoi beyond val < 65536
        · by_cases absent : g.gRPCPortFromArgs = false <;>
            simp [absent, inside, isUser, isPassword, stays]
        · by_cases absent : g.gRPCPortFromArgs = false <;>
            simp [absent, inside, isUser, isPassword, stays]
      · simp [isUser, isPassword, isPort, stays]

theorem readNodeConfig_user {content : List UInt8} (some : value ≠ []) :
    (readNodeConfig beyond content .new).gRPCUser = value ↔
      FirstOf (Takes (text "rpcuser")) (AddrMan.getlines content []) value :=
  keep_iff (fun g line => (readLine_spec g line).1) rfl some

theorem readNodeConfig_password {content : List UInt8} (some : value ≠ []) :
    (readNodeConfig beyond content .new).gRPCPassword = value ↔
      FirstOf (Takes (text "rpcpassword")) (AddrMan.getlines content []) value :=
  keep_iff (fun g line => (readLine_spec g line).2.1) rfl some

theorem readNodeConfig_port {content : List UInt8} {port : Int} :
    (readNodeConfig beyond content .new).gRPCPort = port ↔
      LastOr (TakesPort beyond) (AddrMan.getlines content []) 8328 port := by
  rw [← findSome?_reverse_getD_eq_iff portIn_eq_some_iff, readNodeConfig,
    @foldl_override _ _ _ _ Login.gRPCPort (portIn beyond) (fun g => g.gRPCPortFromArgs = false)
      (fun g line absent => (readLine_spec g line).2.2.1.trans absent)
      (fun g line absent => (readLine_spec g line).2.2.2 absent) _ _ rfl]
  rfl

end

end Cli

/-! ### Where client and node agree -/

/-- The first line the client takes has the text of the last line that sets the key. -/
def SameText (k : List UInt8) (lines : List (List UInt8)) : Prop :=
  ∃ value, LastOf (Config.Sets k) lines value ∧ FirstOf (Cli.Takes k) lines value

/-- The last line the client takes a port from names the port of the last line
that sets one. -/
def SamePort (defaultPort : UInt16) (beyond : Bool → Nat → Int)
    (lines : List (List UInt8)) : Prop :=
  ∃ port : Nat, Config.SetsPort defaultPort lines port ∧
    LastOr (Cli.TakesPort beyond) lines 8328 port

section

variable {k line value : List UInt8}

theorem blank_of_front {b : UInt8} (cut : Cli.front b = true) : Config.blank b = true := by
  simp only [Cli.front, Bool.or_eq_true] at cut
  simp only [Config.blank, Bool.or_eq_true]
  exact .inl (.inl cut)

/-- Every line the client takes sets the key for the node. -/
theorem sets_of_takes (lower : Config.toLower k = k)
    (bare : StdString.Bare Config.blank Config.blank k) (takes : Cli.Takes k line value) :
    ∃ value', Config.Sets k line value' := by
  obtain ⟨_, cut, ⟨rest, rfl, _⟩, a, b, c, d, rfl, blankA, blankB, _, _, new, _, _⟩ := takes
  obtain ⟨c', d', behind, blankC, blankD, bare'⟩ :=
    StdString.exists_trim Config.blank Config.blank (c ++ (value ++ d) ++ rest)
  refine ⟨_, k, lower, a, b, c', d', ?_, fun x mem => blank_of_front (blankA x mem), blankB, blankC,
    blankD, new, bare, bare'⟩
  rw [← behind]
  simp

/-- The client takes the text of a line that is written plainly: without a comment sign, and
with spaces and tabs only in front of the key and of the value. -/
theorem takes_of_plain {a b c d : List UInt8} (some : value ≠ [])
    (blankA : ∀ x ∈ a, Cli.front x = true) (blankB : ∀ x ∈ b, Cli.back x = true)
    (blankC : ∀ x ∈ c, Cli.front x = true) (blankD : ∀ x ∈ d, Cli.back x = true)
    (noComment : 35 ∉ k ++ value) (new : 61 ∉ k)
    (bare : StdString.Bare Config.blank Config.blank k)
    (bare' : StdString.Bare Config.blank Config.blank value) :
    Cli.Takes k (a ++ (k ++ (b ++ 61 :: (c ++ (value ++ d))))) value := by
  have weaker {s : List UInt8} (whole : StdString.Bare Config.blank Config.blank s) :
      StdString.Bare Cli.front Cli.back s := by
    refine ⟨fun x mem => ?_, whole.last⟩
    by_contra cut
    have solid := whole.head x mem
    rw [Bool.not_eq_false] at cut
    rw [blank_of_front cut] at solid
    cases solid
  refine ⟨some, _, ⟨[], (List.append_nil _).symm, fun mem => ?_, by simp⟩, a, b, c, d, rfl, blankA,
    blankB, blankC, blankD, new, weaker bare, weaker bare'⟩
  simp only [List.mem_append, List.mem_cons, not_or] at mem noComment
  rcases mem with blank | key | blank | sign | blank | text | blank
  · cases blankA 35 blank
  · exact noComment.1 key
  · cases blankB 35 blank
  · cases sign
  · cases blankC 35 blank
  · exact noComment.2 text
  · cases blankD 35 blank

/-- A key that is set in one line is the same for both if the client takes that line. -/
theorem sameText_of_single {before after : List (List UInt8)} (lower : Config.toLower k = k)
    (bare : StdString.Bare Config.blank Config.blank k) (sets : Config.Sets k line value)
    (takes : Cli.Takes k line value) (others : ∀ l ∈ before ++ after, ∀ v, ¬ Config.Sets k l v) :
    SameText k (before ++ line :: after) := by
  refine ⟨value, ⟨before, line, after, rfl, sets, fun l mem => ?_⟩,
    ⟨before, line, after, rfl, takes, fun l mem v taken => ?_⟩⟩
  · exact others l (List.mem_append_right before mem)
  · obtain ⟨v', set⟩ := sets_of_takes lower bare taken
    exact others l (List.mem_append_left after mem) v' set

end

/-- **Client and node read the same credentials** from a file that sets both, just where the
lines that each of them goes by say the same. -/
theorem same_credentials_iff (defaultPort : UInt16) (beyond : Bool → Nat → Int)
    (content : List UInt8)
    (user : (Config.load defaultPort (some content) (.new defaultPort)).mRPC.rpcUser ≠ [])
    (password : (Config.load defaultPort (some content) (.new defaultPort)).mRPC.rpcPassword ≠ []) :
    (let node := (Config.load defaultPort (some content) (.new defaultPort)).mRPC
      let client := Cli.readNodeConfig beyond content .new
      client.gRPCUser = node.rpcUser ∧ client.gRPCPassword = node.rpcPassword ∧
        client.gRPCPort = node.rpcPort.toNat) ↔
    SameText (text "rpcuser") (AddrMan.getlines content []) ∧
      SameText (text "rpcpassword") (AddrMan.getlines content []) ∧
      SamePort defaultPort beyond (AddrMan.getlines content []) := by
  have lastOf {k lines value} (some : value ≠ []) :
      LastOr (Config.Sets k) lines [] value ↔ LastOf (Config.Sets k) lines value := by
    rw [LastOr, or_iff_left fun absent => some absent.2]
  dsimp only
  constructor
  · rintro ⟨sameUser, samePassword, samePort⟩
    refine ⟨⟨_, (lastOf user).mp (Config.rpcUser_load.mp rfl), ?_⟩,
      ⟨_, (lastOf password).mp (Config.rpcPassword_load.mp rfl), ?_⟩,
      ⟨_, Config.rpcPort_load.mp rfl, ?_⟩⟩
    · exact (Cli.readNodeConfig_user user).mp sameUser
    · exact (Cli.readNodeConfig_password password).mp samePassword
    · exact Cli.readNodeConfig_port.mp samePort
  · rintro ⟨⟨_, lastUser, firstUser⟩, ⟨_, lastPassword, firstPassword⟩, ⟨_, nodePort, clientPort⟩⟩
    have rpcUser := (@Config.rpcUser_load _ defaultPort content).mpr (.inl lastUser)
    have rpcPassword := (@Config.rpcPassword_load _ defaultPort content).mpr (.inl lastPassword)
    have rpcPort := Config.rpcPort_load.mpr nodePort
    rw [rpcUser] at user ⊢
    rw [rpcPassword] at password ⊢
    rw [rpcPort]
    exact ⟨(Cli.readNodeConfig_user user).mpr firstUser,
      (Cli.readNodeConfig_password password).mpr firstPassword,
      Cli.readNodeConfig_port.mpr clientPort⟩

theorem same_credentials_iff_usual_file :
    let content := text "rpcuser=moneu\nrpcpassword=secret\nrpcport=8400\n"
    (let node := (Config.load 8328 (some content) (.new 8328)).mRPC
      let client := Cli.readNodeConfig (fun _ _ => 0) content .new
      client.gRPCUser = node.rpcUser ∧ client.gRPCPassword = node.rpcPassword ∧
        client.gRPCPort = node.rpcPort.toNat) ↔
    SameText (text "rpcuser") (AddrMan.getlines content []) ∧
      SameText (text "rpcpassword") (AddrMan.getlines content []) ∧
      SamePort 8328 (fun _ _ => 0) (AddrMan.getlines content []) :=
  same_credentials_iff 8328 (fun _ _ => 0)
    (text "rpcuser=moneu\nrpcpassword=secret\nrpcport=8400\n")
    (by decide +kernel) (by decide +kernel)

/-- The client loses what is behind a `#` in a password. -/
theorem password_cut_at_comment :
    (Config.load 8328 (some (text "rpcuser=moneu\nrpcpassword=a#b\n"))
        (.new 8328)).mRPC.rpcPassword = text "a#b" ∧
      (Cli.readNodeConfig (fun _ _ => 0) (text "rpcuser=moneu\nrpcpassword=a#b\n")
        .new).gRPCPassword = text "a" ∧
      ¬ ∀ content, let node := (Config.load 8328 (some content) (.new 8328)).mRPC
        let client := Cli.readNodeConfig (fun _ _ => 0) content .new
        node.rpcUser ≠ [] → node.rpcPassword ≠ [] →
          client.gRPCUser = node.rpcUser ∧ client.gRPCPassword = node.rpcPassword ∧
            client.gRPCPort = node.rpcPort.toNat := by
  refine ⟨by decide +kernel, by decide +kernel, fun same => ?_⟩
  have cut := (same (text "rpcuser=moneu\nrpcpassword=a#b\n") (by decide +kernel)
    (by decide +kernel)).2.1
  revert cut
  decide +kernel

end QmaskCore
