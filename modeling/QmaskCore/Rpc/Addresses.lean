import QmaskCore.Lib.Radix
import QmaskCore.Rpc.Sending
import QmaskCore.Wallet.Session

/-!
Payment addresses, and the four places that read them.

An address is a prefix and a hash with a checksum behind, in base 58. What a
decoder accepts is compared with `Spells`, so two of them are compared by what
they ask beyond it. `decoders_agree_iff` finds one that does not ask for the
prefix of the network.

The codec of base 58 is what the wallet takes it to be (`WalletParams.b58tobin`),
and `Base58` what is asked of it; `base58_b58tobin` says the digits of
`base58.c` do it. Strings are as `c_str` hands them on.
-/

namespace QmaskCore

/-! ### Base 58 -/

/-- `b58digits_ordered`. -/
def b58digitsOrdered : List UInt8 := [
  49, 50, 51, 52, 53, 54, 55, 56, 57, 65, 66, 67, 68, 69, 70, 71, 72, 74, 75, 76,
  77, 78, 80, 81, 82, 83, 84, 85, 86, 87, 88, 89, 90, 97, 98, 99, 100, 101, 102, 103,
  104, 105, 106, 107, 109, 110, 111, 112, 113, 114, 115, 116, 117, 118, 119, 120, 121, 122]

/-- `b58tobin`. Its long division is that of numbers: what does not fit `binsz`
bytes, with the zeros before it, is refused. -/
def b58tobin (binsz : Nat) (b58 : List UInt8) : Option (List UInt8) :=
  match (b58.takeWhile (· ≠ 0)).mapM fun c => b58digitsOrdered.idxOf? c with
  | none => none
  | some digits =>
      let bytes := Radix.rebase 58 256 digits
      if binsz < bytes.length then none else some (bytes.map UInt8.ofNat)

/-- `b58enc`, into a buffer that also takes the zero behind the string. -/
def b58enc (b58sz : Nat) (data : List UInt8) : Option (List UInt8) :=
  let b58 := (Radix.rebase 256 58 (data.map UInt8.toNat)).map fun d => b58digitsOrdered.getD d 0
  if b58sz ≤ b58.length then none else some b58

/-- What the addresses need of base 58: strings of 37 bytes come back, from a
string that fits the buffers, and an empty string holds no bytes. -/
structure WalletParams.Base58 (K : WalletParams)
    (enc : Nat → List UInt8 → Option (List UInt8)) : Prop where
  inverts : ∀ bytes : List UInt8, bytes.length = 37 → ∃ str, str.length < 64 ∧
    K.b58tobin str = some bytes ∧ ∀ size, 64 ≤ size → enc size bytes = some str
  empty : K.b58tobin [] = some []

/-! ### Writing an address -/

section

variable (P : Params) (K : WalletParams) (enc : Nat → List UInt8 → Option (List UInt8))
  (pubkeyAddressPrefix : UInt8)

/-- The first four bytes of the double digest. -/
def addressChecksum (payload : List UInt8) : List UInt8 :=
  (P.sha256 (P.sha256 payload).toBytes).toBytes.take 4

/-- `BuildAddress`, with what its buffer holds where nothing is written. -/
def buildAddress (unset : List UInt8) (pubkeyHash : Bytes32) : List UInt8 :=
  let payload := pubkeyAddressPrefix :: pubkeyHash.toBytes
  (enc 64 (payload ++ addressChecksum P payload)).getD unset

/-- `base58_encode_check`, `none` where it answers with 0. -/
def base58EncodeCheck (data : List UInt8) (strsize : Nat) : Option (List UInt8) :=
  if 128 < data.length then none else enc strsize (data ++ addressChecksum P data)

/-- `PublicKey::ToAddressWithNoise`, `none` where it throws. -/
def toAddressWithNoise (key kps : Bytes32) (pre : UInt8) : Option (List UInt8) :=
  base58EncodeCheck P enc (pre :: (noiseBoundHash P key kps).toBytes) 128

/-! ### Reading one -/

/-- `base58_decode_check` into 33 bytes, `none` where it answers with 0. -/
def base58DecodeCheck (str : List UInt8) : Option (List UInt8) :=
  match K.b58tobin str with
  | none => none
  | some nd =>
      if nd.length < 4 then none
      else
        let payload := nd.take (nd.length - 4)
        if nd.drop (nd.length - 4) ≠ addressChecksum P payload then none else some payload

/-- `DecodeNoiseAddress`, `none` where it returns false. -/
def decodeNoiseAddress (addr : List UInt8) : Option (UInt8 × Bytes32) :=
  match base58DecodeCheck P K addr with
  | none => none
  | some payload =>
      if payload.length ≠ 33 then none
      else some (payload.headD 0, Bytes32.ofBytes (payload.drop 1))

namespace Rpc

/-- The steps `DecodeRewardAddress` and `startmining` share, up to the text for a
checksum that does not match. -/
def rewardHash (badChecksum : String) (addrStr : List UInt8) : Except String Bytes32 :=
  if addrStr.isEmpty || decide (64 < addrStr.length) then
    .error "Invalid reward address encoding"
  else
    match K.b58tobin addrStr with
    | none => .error "Invalid reward address encoding"
    | some decoded =>
        if decoded.length ≠ 37 then .error "Invalid reward address encoding"
        else if decoded.headD 0 ≠ pubkeyAddressPrefix then
          .error "Reward address has wrong network prefix"
        else if decoded.drop 33 ≠ addressChecksum P (decoded.take 33) then .error badChecksum
        else .ok (Bytes32.ofBytes ((decoded.drop 1).take 32))

def decodeRewardAddress (addrStr : List UInt8) : Except String Bytes32 :=
  rewardHash P K pubkeyAddressPrefix "Reward address checksum does not match" addrStr

/-- The copy in `startmining`. -/
def startminingHash (addrStr : List UInt8) : Except RPCError Bytes32 :=
  (rewardHash P K pubkeyAddressPrefix "Invalid reward address checksum" addrStr).mapError
    (.rpc .rpcInvalidParams)

end Rpc

/-! ### What an address spells -/

/-- The string is a prefix and a hash with the checksum behind. -/
def Spells (addr : List UInt8) (pre : UInt8) (pubkeyHash : Bytes32) : Prop :=
  K.b58tobin addr =
    some (pre :: pubkeyHash.toBytes ++ addressChecksum P (pre :: pubkeyHash.toBytes))

end

section

variable {P : Params} {K : WalletParams} {pubkeyAddressPrefix pre : UInt8} {addr : List UInt8}
  {h : Bytes32}

theorem length_addressChecksum (payload : List UInt8) : (addressChecksum P payload).length = 4 := by
  simp [addressChecksum]

theorem spells_iff : Spells P K addr pre h ↔ ∃ decoded, K.b58tobin addr = some decoded ∧
    decoded.length = 37 ∧ decoded.headD 0 = pre ∧
    decoded.drop 33 = addressChecksum P (decoded.take 33) ∧
    Bytes32.ofBytes ((decoded.drop 1).take 32) = h := by
  constructor
  · intro spelled
    have payload : (pre :: h.toBytes).length = 33 := by simp
    refine ⟨_, spelled, ?_, rfl, ?_, ?_⟩
    · rw [List.length_append, payload, length_addressChecksum]
    · rw [List.drop_left' payload, List.take_left' payload]
    · rw [List.cons_append, List.drop_one, List.tail_cons,
        List.take_left' (Bytes32.length_toBytes h), Bytes32.ofBytes_toBytes]
  · rintro ⟨decoded, read, length, rfl, checked, rfl⟩
    have split : decoded.take 33 = decoded.headD 0 :: (decoded.drop 1).take 32 := by
      cases decoded with
      | nil => cases length
      | cons b rest => rfl
    have hash : ((decoded.drop 1).take 32).length = 32 := by
      rw [List.length_take, List.length_drop]
      omega
    rw [Spells, Bytes32.toBytes_ofBytes hash, ← split, ← checked, List.take_append_drop, read]

theorem WalletManager.decodeAddress_eq_ok_iff :
    decodeAddress P K addr = .ok h ↔ ∃ pre, Spells P K addr pre h := by
  simp only [spells_iff]
  constructor
  · intro read
    rw [decodeAddress] at read
    split at read
    · cases read
    rename_i decoded found
    split at read
    · cases read
    rename_i length
    dsimp only at read
    split at read
    · cases read
    rename_i checked
    exact ⟨decoded.headD 0, decoded, found, not_not.mp length, rfl, not_not.mp checked,
      Except.ok.inj read⟩
  · rintro ⟨pre, decoded, found, length, -, checked, rfl⟩
    rw [decodeAddress, found]
    dsimp only
    rw [if_neg (not_not.mpr length)]
    exact if_neg (not_not.mpr checked)

theorem Rpc.rewardHash_eq_ok_iff {badChecksum : String} :
    rewardHash P K pubkeyAddressPrefix badChecksum addr = .ok h ↔
      addr ≠ [] ∧ addr.length ≤ 64 ∧ Spells P K addr pubkeyAddressPrefix h := by
  have sized : (addr.isEmpty || decide (64 < addr.length)) = true ↔
      ¬ (addr ≠ [] ∧ addr.length ≤ 64) := by
    rw [Bool.or_eq_true, List.isEmpty_iff, decide_eq_true_iff, not_and_or, not_not, Nat.not_le]
  rw [spells_iff, ← and_assoc]
  constructor
  · intro read
    rw [rewardHash] at read
    split at read
    · cases read
    rename_i size
    split at read
    · cases read
    rename_i decoded found
    split at read
    · cases read
    rename_i length
    split at read
    · cases read
    rename_i network
    split at read
    · cases read
    rename_i checked
    exact ⟨not_not.mp (mt sized.mpr size), decoded, found, not_not.mp length, not_not.mp network,
      not_not.mp checked, Except.ok.inj read⟩
  · rintro ⟨size, decoded, found, length, network, checked, rfl⟩
    rw [rewardHash, if_neg (mt sized.mp (not_not.mpr size)), found]
    dsimp only
    rw [if_neg (not_not.mpr length), if_neg (not_not.mpr network), if_neg (not_not.mpr checked)]

theorem decodeNoiseAddress_eq_some_iff :
    decodeNoiseAddress P K addr = some (pre, h) ↔ Spells P K addr pre h := by
  rw [spells_iff]
  constructor
  · intro read
    rw [decodeNoiseAddress, base58DecodeCheck] at read
    cases found : K.b58tobin addr with
    | none =>
        rw [found] at read
        cases read
    | some nd =>
        rw [found] at read
        dsimp only at read
        by_cases few : nd.length < 4
        · rw [if_pos few] at read
          cases read
        rw [if_neg few] at read
        by_cases checked : nd.drop (nd.length - 4) ≠ addressChecksum P (nd.take (nd.length - 4))
        · rw [if_pos checked] at read
          cases read
        rw [if_neg checked] at read
        dsimp only at read
        split at read
        · cases read
        rename_i size
        have length : nd.length = 37 := by
          rw [List.length_take] at size
          omega
        rw [length] at read checked
        obtain ⟨rfl, rfl⟩ := Prod.mk.inj (Option.some.inj read)
        refine ⟨nd, rfl, length, ?_, not_not.mp checked, ?_⟩
        · cases nd with
          | nil => rfl
          | cons b rest => rfl
        · rw [List.drop_take]
  · rintro ⟨nd, found, length, rfl, checked, rfl⟩
    have size : (nd.take 33).length = 33 := by
      rw [List.length_take]
      omega
    rw [decodeNoiseAddress, base58DecodeCheck, found]
    dsimp only
    rw [length, if_neg (by decide), if_neg (not_not.mpr checked)]
    dsimp only
    rw [if_neg (not_not.mpr size), List.drop_take]
    cases nd with
    | nil => cases length
    | cons b rest => rfl

end

/-! ### The decoders side by side -/

section

variable (P : Params) (K : WalletParams) (enc : Nat → List UInt8 → Option (List UInt8))
  (pubkeyAddressPrefix : UInt8)

/-- All four take the string for an address of the hash. -/
structure AllRead (addr : List UInt8) (h : Bytes32) : Prop where
  createTransaction : WalletManager.decodeAddress P K addr = .ok h
  decodeRewardAddress : Rpc.decodeRewardAddress P K pubkeyAddressPrefix addr = .ok h
  startmining : Rpc.startminingHash P K pubkeyAddressPrefix addr = .ok h
  decodeNoiseAddress : decodeNoiseAddress P K addr = some (pubkeyAddressPrefix, h)

/-- What one of them takes the string for, the others do. -/
structure DecodersAgree (addr : List UInt8) : Prop where
  decodeRewardAddress : ∀ h, WalletManager.decodeAddress P K addr = .ok h ↔
    Rpc.decodeRewardAddress P K pubkeyAddressPrefix addr = .ok h
  startmining : ∀ h, WalletManager.decodeAddress P K addr = .ok h ↔
    Rpc.startminingHash P K pubkeyAddressPrefix addr = .ok h
  decodeNoiseAddress : ∀ h, WalletManager.decodeAddress P K addr = .ok h ↔
    QmaskCore.decodeNoiseAddress P K addr = some (pubkeyAddressPrefix, h)

variable {P K enc pubkeyAddressPrefix}

theorem startminingHash_eq_ok_iff {addr : List UInt8} {h : Bytes32} :
    Rpc.startminingHash P K pubkeyAddressPrefix addr = .ok h ↔
      addr ≠ [] ∧ addr.length ≤ 64 ∧ Spells P K addr pubkeyAddressPrefix h := by
  rw [← @Rpc.rewardHash_eq_ok_iff _ _ _ _ _ "Invalid reward address checksum",
    Rpc.startminingHash]
  cases Rpc.rewardHash P K pubkeyAddressPrefix "Invalid reward address checksum" addr <;>
    simp [Except.mapError]

theorem Spells.inj {addr : List UInt8} {pre pre' : UInt8} {h h' : Bytes32}
    (spelled : Spells P K addr pre h) (spelled' : Spells P K addr pre' h') : pre = pre' ∧ h = h' := by
  have same := Option.some.inj (spelled.symm.trans spelled')
  rw [List.cons_append, List.cons_append, List.cons.injEq] at same
  exact ⟨same.1, Bytes32.toBytes_inj (List.append_inj same.2 (by simp)).1⟩

theorem allRead_iff {addr : List UInt8} {h : Bytes32} :
    AllRead P K pubkeyAddressPrefix addr h ↔
      addr ≠ [] ∧ addr.length ≤ 64 ∧ Spells P K addr pubkeyAddressPrefix h := by
  constructor
  · exact fun read => Rpc.rewardHash_eq_ok_iff.mp read.decodeRewardAddress
  · intro sized
    exact ⟨WalletManager.decodeAddress_eq_ok_iff.mpr ⟨_, sized.2.2⟩,
      Rpc.rewardHash_eq_ok_iff.mpr sized, startminingHash_eq_ok_iff.mpr sized,
      decodeNoiseAddress_eq_some_iff.mpr sized.2.2⟩

/-- The string is a well-formed address of another network. -/
def Foreign (P : Params) (K : WalletParams) (pubkeyAddressPrefix : UInt8) (addr : List UInt8) :
    Prop :=
  ∃ pre ≠ pubkeyAddressPrefix, ∃ h, Spells P K addr pre h

namespace WalletParams.Base58

variable (base58 : K.Base58 enc)
include base58

theorem ne_nil_of_spells {addr : List UInt8} {pre : UInt8} {h : Bytes32}
    (spelled : Spells P K addr pre h) : addr ≠ [] := by
  rintro rfl
  cases (spelled.symm.trans base58.empty)

/-- Only the prefix sets the decoders apart. -/
theorem decodersAgree_iff {addr : List UInt8} (short : addr.length ≤ 64) :
    DecodersAgree P K pubkeyAddressPrefix addr ↔ ¬ Foreign P K pubkeyAddressPrefix addr := by
  constructor
  · rintro agree ⟨pre, other, h, spelled⟩
    have taken := (agree.decodeNoiseAddress h).mp
      (WalletManager.decodeAddress_eq_ok_iff.mpr ⟨pre, spelled⟩)
    exact other (spelled.inj (decodeNoiseAddress_eq_some_iff.mp taken)).1
  · intro own
    have read {h : Bytes32} : WalletManager.decodeAddress P K addr = .ok h ↔
        Spells P K addr pubkeyAddressPrefix h := by
      rw [WalletManager.decodeAddress_eq_ok_iff]
      refine ⟨fun ⟨pre, spelled⟩ => ?_, fun spelled => ⟨_, spelled⟩⟩
      by_cases same : pre = pubkeyAddressPrefix
      · exact same ▸ spelled
      · exact absurd ⟨pre, same, h, spelled⟩ own
    have sized {h : Bytes32} : Spells P K addr pubkeyAddressPrefix h ↔
        addr ≠ [] ∧ addr.length ≤ 64 ∧ Spells P K addr pubkeyAddressPrefix h :=
      ⟨fun spelled => ⟨base58.ne_nil_of_spells spelled, short, spelled⟩, fun all => all.2.2⟩
    exact ⟨fun h => read.trans (sized.trans Rpc.rewardHash_eq_ok_iff.symm),
      fun h => read.trans (sized.trans startminingHash_eq_ok_iff.symm),
      fun h => read.trans decodeNoiseAddress_eq_some_iff.symm⟩

/-- What is written for a prefix and a hash. -/
theorem exists_written (P : Params) (pre : UInt8) (h : Bytes32) : ∃ str, str.length < 64 ∧
    Spells P K str pre h ∧ ∀ size, 64 ≤ size →
      enc size (pre :: h.toBytes ++ addressChecksum P (pre :: h.toBytes)) = some str :=
  base58.inverts _ (by simp [length_addressChecksum])

theorem allRead_of_spells {addr : List UInt8} {h : Bytes32} (short : addr.length < 64)
    (spelled : Spells P K addr pubkeyAddressPrefix h) : AllRead P K pubkeyAddressPrefix addr h :=
  allRead_iff.mpr ⟨base58.ne_nil_of_spells spelled, short.le, spelled⟩

end WalletParams.Base58

end

/-- **Four decoders.** They agree on a string unless it is the address of another
network, which `CreateTransaction` takes; and all read what is written for this one. -/
theorem decoders_agree_iff (P : Params) (K : WalletParams)
    (enc : Nat → List UInt8 → Option (List UInt8)) (base58 : K.Base58 enc)
    (pubkeyAddressPrefix : UInt8) :
    (∀ addr : List UInt8, addr.length ≤ 64 →
      (DecodersAgree P K pubkeyAddressPrefix addr ↔ ¬ Foreign P K pubkeyAddressPrefix addr)) ∧
    (∀ unset h, AllRead P K pubkeyAddressPrefix
      (buildAddress P enc pubkeyAddressPrefix unset h) h) ∧
    ∀ key kps, ∃ addr, toAddressWithNoise P enc key kps pubkeyAddressPrefix = some addr ∧
      AllRead P K pubkeyAddressPrefix addr (noiseBoundHash P key kps) := by
  refine ⟨fun addr short => base58.decodersAgree_iff short, fun unset h => ?_, fun key kps => ?_⟩
  · obtain ⟨str, short, spelled, written⟩ := base58.exists_written P pubkeyAddressPrefix h
    rw [buildAddress, written 64 (Nat.le_refl 64), Option.getD_some]
    exact base58.allRead_of_spells short spelled
  · obtain ⟨str, short, spelled, written⟩ :=
      base58.exists_written P pubkeyAddressPrefix (noiseBoundHash P key kps)
    refine ⟨str, ?_, base58.allRead_of_spells short spelled⟩
    rw [toAddressWithNoise, base58EncodeCheck, if_neg (by simp), written 128 (by decide)]

/-! ### The digits of the source -/

section

theorem idxOf_digit {d : Nat} (small : d < 58) :
    b58digitsOrdered.idxOf? (b58digitsOrdered.getD d 0) = some d := by
  decide +revert

theorem digit_ne_zero {d : Nat} (small : d < 58) : b58digitsOrdered.getD d 0 ≠ 0 := by
  decide +revert

theorem mapM_idxOf_digits {digits : List Nat} (small : ∀ d ∈ digits, d < 58) :
    (digits.map fun d => b58digitsOrdered.getD d 0).mapM (fun c => b58digitsOrdered.idxOf? c) =
      some digits := by
  induction digits with
  | nil => rfl
  | cons d digits ih =>
      rw [List.forall_mem_cons] at small
      rw [List.map_cons, List.mapM_cons, idxOf_digit small.1, ih small.2]
      rfl

theorem b58tobin_digits {binsz : Nat} {digits : List Nat} (small : ∀ d ∈ digits, d < 58)
    (fits : (Radix.rebase 58 256 digits).length ≤ binsz) :
    b58tobin binsz (digits.map fun d => b58digitsOrdered.getD d 0) =
      some ((Radix.rebase 58 256 digits).map UInt8.ofNat) := by
  have whole : (digits.map fun d => b58digitsOrdered.getD d 0).takeWhile (· ≠ 0) =
      digits.map fun d => b58digitsOrdered.getD d 0 := by
    rw [List.takeWhile_eq_self_iff, List.forall_mem_map]
    exact fun d mem => decide_eq_true (digit_ne_zero (small d mem))
  rw [b58tobin, whole, mapM_idxOf_digits small]
  exact if_neg (Nat.not_lt.mpr fits)

/-- The strings `b58enc` writes are read back. -/
theorem b58tobin_b58enc (bytes : List UInt8) (length : bytes.length = 37) : ∃ str, str.length < 64 ∧
    b58tobin 37 str = some bytes ∧ ∀ size, 64 ≤ size → b58enc size bytes = some str := by
  have small : ∀ d ∈ bytes.map UInt8.toNat, d < 256 :=
    List.forall_mem_map.mpr fun b _ => b.toNat_lt
  have back : Radix.rebase 58 256 (Radix.rebase 256 58 (bytes.map UInt8.toNat)) =
      bytes.map UInt8.toNat := Radix.rebase_rebase (by decide) small
  have bytes_back : (bytes.map UInt8.toNat).map UInt8.ofNat = bytes := by
    rw [List.map_map]
    exact (List.map_congr_left fun b _ => UInt8.ofNat_toNat).trans (List.map_id _)
  have few : (Radix.rebase 256 58 (bytes.map UInt8.toNat)).length < 64 := by
    have zeros := Radix.zeros_le_length (bytes.map UInt8.toNat)
    rw [List.length_map, length] at zeros
    have bound := @Radix.length_rebase_le 256 58 5 7
      ((37 - Radix.zeros (bytes.map UInt8.toNat) + 4) / 5) (by decide) (by decide) (by decide) _
      small (by rw [List.length_map, length]; omega)
    omega
  refine ⟨(Radix.rebase 256 58 (bytes.map UInt8.toNat)).map fun d => b58digitsOrdered.getD d 0,
    ?_, ?_, fun size large => ?_⟩
  · rwa [List.length_map]
  · rw [b58tobin_digits (Radix.lt_of_mem_rebase (by decide)) (by rw [back, List.length_map, length]),
      back, bytes_back]
  · rw [b58enc]
    exact if_neg (by rw [List.length_map]; omega)

end

/-- A wallet with the codec of the source. -/
def base58Wallet : WalletParams := { smallWallet with b58tobin := b58tobin 37 }

theorem base58_b58tobin : base58Wallet.Base58 b58enc where
  inverts := b58tobin_b58enc
  empty := by simp [base58Wallet, b58tobin, Radix.rebase, Radix.zeros, Radix.value]

/-- On a network with the prefix 25 the address of the hash 1 is read by all. -/
theorem decoders_agree_iff_small :
    AllRead smallNetwork base58Wallet 25 (buildAddress smallNetwork b58enc 25 [] 1) 1 :=
  (decoders_agree_iff smallNetwork base58Wallet b58enc base58_b58tobin 25).2.1 [] 1

/-- The address of the hash 1 on the network with the prefix 26 is one to send to on
the network with the prefix 25. -/
theorem foreign_address_taken :
    (buildAddress smallNetwork b58enc 26 [] 1).length ≤ 64 ∧
      WalletManager.decodeAddress smallNetwork base58Wallet
        (buildAddress smallNetwork b58enc 26 [] 1) = .ok 1 ∧
      Rpc.decodeRewardAddress smallNetwork base58Wallet 25
        (buildAddress smallNetwork b58enc 26 [] 1) ≠ .ok 1 := by
  obtain ⟨addr, short, spelled, written⟩ := base58_b58tobin.exists_written smallNetwork 26 1
  rw [buildAddress, written 64 (Nat.le_refl 64), Option.getD_some]
  refine ⟨short.le, WalletManager.decodeAddress_eq_ok_iff.mpr ⟨26, spelled⟩, fun taken => ?_⟩
  have own := ((Rpc.rewardHash_eq_ok_iff.mp taken).2.2.inj spelled).1
  contradiction

end QmaskCore
