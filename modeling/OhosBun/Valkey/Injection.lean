/-
# `OhosBun.Valkey.Injection` — what a reader makes of commands

Names and arguments are counted, so that nothing in them is read as a part of the protocol: a
reader finds the commands that were written, one array of bulk strings each (`many_serialize`).
-/
import Mathlib.Data.Nat.Digits.Lemmas
import OhosBun.Semver.Numbers
import OhosBun.Valkey.Command
import OhosBun.Valkey.Protocol

namespace OhosBun.Valkey

open OhosBun.Lib OhosBun.Semver

/-! ## Lengths -/

theorem parseInt64_decimal {n : Nat} (h : n < 2 ^ 63) : parseInt64 (decimal n) = some (n : Int) := by
  have hdigit : ∀ c ∈ decimal n, isDigit c = true := decimal_digits n
  have hparse : parseWithSign 10 (decimal n) = some n := by
    have hascii := parseAscii_decimal (h.trans (by decide))
    rw [parseAscii] at hascii
    cases hsign : parseWithSign 10 (decimal n) with
    | none =>
      rw [hsign] at hascii
      exact absurd hascii (by simp)
    | some m =>
      rw [hsign] at hascii
      dsimp only at hascii
      split at hascii
      · exact hascii
      · exact absurd hascii (by simp)
  unfold parseInt64
  split
  · rename_i hnil
    exact absurd hnil (decimal_ne_nil n)
  · rename_i rest hplus
    exact absurd (hdigit 43 (hplus ▸ List.mem_cons_self)) (by decide)
  · rename_i rest hminus
    exact absurd (hdigit 45 (hminus ▸ List.mem_cons_self)) (by decide)
  · rw [hparse, Option.bind_some, if_pos h]

theorem length_decimal_le {n : Nat} (h : n < 2 ^ 63) : (decimal n).length ≤ maxLineLen := by
  rw [decimal]
  split
  · exact (by decide : 1 ≤ maxLineLen)
  · rw [List.length_reverse, List.length_map]
    have hle : (Nat.digits 10 n).length ≤ 19 :=
      (Nat.digits_length_le_iff (by decide) n).mpr (h.trans (by decide))
    exact hle.trans (by decide)

theorem readInteger_decimal {n : Nat} (h : n < 2 ^ 63) (rest : Bytes) :
    readInteger 0 (decimal n ++ 13 :: 10 :: rest) = (.ok (n : Int), rest) := by
  have hline : 13 ∉ decimal n := not_mem_of_digits (decimal_digits n) (by decide)
  rw [readInteger, Reader.bind_of_ok (readUntilCrlf_append hline (length_decimal_le h) rest),
    parseInt64_decimal h]
  rfl

/-! ## Values -/

section Values
variable {F64 : Type} (floats : Floats F64)

theorem readBlob_append (invalid : RedisError) (bytes rest : Bytes) :
    readBlob invalid bytes.length (bytes ++ 13 :: 10 :: rest) = (.ok bytes, rest) := by
  have hline : readUntilCrlf 0 (13 :: 10 :: rest) = (.ok [], rest) :=
    readUntilCrlf_append List.not_mem_nil (Nat.zero_le _) rest
  have hlen : ¬(bytes ++ 13 :: 10 :: rest).length < bytes.length := by
    rw [List.length_append]
    exact Nat.not_lt.mpr (Nat.le_add_right _ _)
  rw [readBlob, if_neg hlen, List.drop_left, List.take_left, Reader.bind_of_ok hline]
  rfl

/-- A bulk string is read, whatever is in it. -/
theorem readValueAt_bulkString {bytes : Bytes} (h : bytes.length ≤ maxBulkLen) (levels : Nat) (rest : Bytes) :
    readValueAt floats levels (bulkString bytes ++ rest) = (.ok (.bulkString (some bytes)), rest) := by
  have hint : readInteger 0 (decimal bytes.length ++ 13 :: 10 :: (bytes ++ 13 :: 10 :: rest)) =
      (.ok (bytes.length : Int), bytes ++ 13 :: 10 :: rest) :=
    readInteger_decimal (h.trans_lt (by decide)) _
  have hbytes : bulkString bytes ++ rest =
      36 :: (decimal bytes.length ++ 13 :: 10 :: (bytes ++ 13 :: 10 :: rest)) := by
    simp only [bulkString, List.cons_append, List.append_assoc, List.nil_append]
  have hbulk : ∀ child, readWith floats child (bulkString bytes ++ rest) =
      (.ok (.bulkString (some bytes)), rest) := by
    intro child
    rw [hbytes]
    change ((readInteger 0).bind _) (decimal bytes.length ++ _) = _
    rw [Reader.bind_of_ok hint]
    rw [if_neg (by omega), if_neg (by omega), Int.toNat_natCast]
    exact Reader.map_eq_ok.2 ⟨_, readBlob_append _ _ _, rfl⟩
  cases levels with
  | zero => exact hbulk _
  | succ levels => exact hbulk _

/-! ## Commands -/

/-- The command is in memory, and no part of it is larger than a server takes. -/
structure Command.Sendable (c : Command) : Prop where
  command : c.command.length ≤ maxBulkLen
  args : ∀ arg ∈ c.args, arg.length ≤ maxBulkLen
  count : 1 + c.args.length < 2 ^ 63

instance (c : Command) : Decidable c.Sendable :=
  decidable_of_iff (c.command.length ≤ maxBulkLen ∧ (∀ arg ∈ c.args, arg.length ≤ maxBulkLen) ∧
    1 + c.args.length < 2 ^ 63) ⟨fun ⟨h, h', h''⟩ => ⟨h, h', h''⟩, fun ⟨h, h', h''⟩ => ⟨h, h', h''⟩⟩

/-- What a command is read as. -/
def Command.toValue (c : Command) : RESPValue F64 :=
  .array ((c.command :: c.args).map fun bytes => .bulkString (some bytes))

theorem readValue_serialize {c : Command} (h : c.Sendable) (rest : Bytes) :
    readValue floats (c.serialize ++ rest) = (.ok c.toValue, rest) := by
  have hlen : (c.command :: c.args).length = 1 + c.args.length := Nat.add_comm _ _
  have hparts : ∀ part ∈ c.command :: c.args, ∀ rest, readValueAt floats 127 (bulkString part ++ rest) =
      (.ok (.bulkString (some part)), rest) := by
    refine List.forall_mem_cons.mpr ⟨fun rest => ?_, fun arg harg rest => ?_⟩
    · exact readValueAt_bulkString floats h.command 127 rest
    · exact readValueAt_bulkString floats (h.args arg harg) 127 rest
  have hmany := Reader.many_flatMap hparts rest
  have hbytes : c.serialize ++ rest = 42 :: (decimal (1 + c.args.length) ++ 13 :: 10 ::
      ((c.command :: c.args).flatMap bulkString ++ rest)) := by
    simp only [Command.serialize, List.flatMap_cons, List.cons_append, List.append_assoc,
      List.nil_append]
  rw [hbytes]
  change ((readInteger 0).bind _) (decimal (1 + c.args.length) ++ _) = _
  rw [Reader.bind_of_ok (readInteger_decimal h.count _)]
  dsimp only
  rw [if_neg (by decide), if_neg (by omega), Int.toNat_natCast, ← hlen]
  exact Reader.map_eq_ok.2 ⟨_, hmany, rfl⟩

/-- Commands that are written one after the other are read as these, and nothing is left. -/
theorem many_serialize (commands : List Command) (h : ∀ c ∈ commands, c.Sendable) :
    (readValue floats).many commands.length (commands.flatMap Command.serialize) =
      (.ok (commands.map Command.toValue), []) := by
  have hmany := Reader.many_flatMap (fun c hc rest => readValue_serialize floats (h c hc) rest) []
  rwa [List.append_nil] at hmany

end Values

/-- An argument that looks like a command. -/
def injected : List Command :=
  [⟨ascii "SET", [ascii "key", [13, 10] ++ Command.serialize ⟨ascii "FLUSHALL", [], {}⟩ ++ [0]], {}⟩,
    ⟨ascii "GET", [ascii "key"], {}⟩]

theorem many_serialize_injected :
    (readValue (Floats.mk () () () fun _ => none)).many 2 (injected.flatMap Command.serialize) =
      (.ok (injected.map Command.toValue), []) :=
  many_serialize _ injected (by decide)

end OhosBun.Valkey
