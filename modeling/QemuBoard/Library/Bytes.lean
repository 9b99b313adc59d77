import QemuBoard.Library.Action
import Mathlib.Data.Nat.Digits.Lemmas

namespace QemuBoard.Library

def leBytes : Nat → Nat → List Nat
  | 0, _ => []
  | n + 1, v => v % 256 :: leBytes n (v / 256)

def bswap (n v : Nat) : Nat := Nat.ofDigits 256 (leBytes n v).reverse

section Bytes

variable {n m k v : Nat} {bs : List Nat}

@[simp] theorem length_leBytes (n v : Nat) : (leBytes n v).length = n := by
  induction n generalizing v with
  | zero => rfl
  | succ n ih => rw [leBytes, List.length_cons, ih]

theorem lt_of_mem_leBytes {b : Nat} (h : b ∈ leBytes n v) : b < 256 := by
  induction n generalizing v with
  | zero => exact absurd h List.not_mem_nil
  | succ n ih =>
    rcases List.mem_cons.mp h with rfl | hmem
    · exact Nat.mod_lt v (by decide)
    · exact ih hmem

theorem ofDigits_leBytes (n v : Nat) : Nat.ofDigits 256 (leBytes n v) = v % 256 ^ n := by
  induction n generalizing v with
  | zero => simp [leBytes, Nat.mod_one]
  | succ n ih =>
    rw [leBytes, Nat.ofDigits_cons, ih, Nat.pow_succ', Nat.mod_mul]

theorem leBytes_ofDigits (h : ∀ b ∈ bs, b < 256) :
    leBytes bs.length (Nat.ofDigits 256 bs) = bs := by
  induction bs with
  | nil => rfl
  | cons b bs ih =>
    have hb := h b List.mem_cons_self
    rw [Nat.ofDigits_cons, List.length_cons, leBytes, Nat.add_mul_mod_self_left,
      Nat.mod_eq_of_lt hb, Nat.add_mul_div_left _ _ (by decide), Nat.div_eq_of_lt hb, Nat.zero_add,
      ih fun x hx => h x (List.mem_cons_of_mem b hx)]

theorem leBytes_add (m n v : Nat) : leBytes (m + n) v = leBytes m v ++ leBytes n (v / 256 ^ m) := by
  induction m generalizing v with
  | zero => simp [leBytes]
  | succ m ih =>
    rw [Nat.add_right_comm, leBytes, leBytes, ih, Nat.div_div_eq_div_mul, Nat.pow_succ',
      List.cons_append]

theorem take_leBytes (h : k ≤ n) (v : Nat) : (leBytes n v).take k = leBytes k v := by
  obtain ⟨m, rfl⟩ := Nat.exists_eq_add_of_le h
  rw [leBytes_add, List.take_left' (length_leBytes k v)]

theorem drop_leBytes (h : k ≤ n) (v : Nat) :
    (leBytes n v).drop k = leBytes (n - k) (v / 256 ^ k) := by
  obtain ⟨m, rfl⟩ := Nat.exists_eq_add_of_le h
  rw [leBytes_add, List.drop_left' (length_leBytes k v), Nat.add_sub_cancel_left]

theorem leBytes_mod (n v : Nat) : leBytes n (v % 256 ^ n) = leBytes n v := by
  have hof := leBytes_ofDigits fun b (hb : b ∈ leBytes n v) => lt_of_mem_leBytes hb
  rwa [ofDigits_leBytes, length_leBytes] at hof

theorem shiftLeft_or (hv : v < 256 ^ k) (u : Nat) : u <<< (k * 8) ||| v = u * 256 ^ k + v := by
  have hpow : 2 ^ (k * 8) = 256 ^ k := by rw [Nat.mul_comm, Nat.pow_mul]
  rw [← Nat.shiftLeft_add_eq_or_of_lt (hpow.symm ▸ hv), Nat.shiftLeft_eq, hpow]

theorem ofDigits_lt (h : ∀ b ∈ bs, b < 256) : Nat.ofDigits 256 bs < 256 ^ bs.length :=
  Nat.ofDigits_lt_base_pow_length (by decide) h

theorem bswap_ofDigits (h : ∀ b ∈ bs, b < 256) :
    bswap bs.length (Nat.ofDigits 256 bs) = Nat.ofDigits 256 bs.reverse := by
  rw [bswap, leBytes_ofDigits h]

end Bytes

section Tiles

variable {cap addr k : Nat} {ks ks' : List Nat}

/-- The sizes of pieces that follow on one another from `addr` on, each of them aligned. -/
def Tiles (cap : Nat) : Nat → List Nat → Prop
  | _, [] => True
  | addr, k :: ks => 0 < k ∧ k ∣ cap ∧ k ∣ addr ∧ Tiles cap (addr + k) ks

theorem Tiles.append (h : Tiles cap addr ks) (h' : Tiles cap (addr + ks.sum) ks') :
    Tiles cap addr (ks ++ ks') := by
  induction ks generalizing addr with
  | nil => exact h'
  | cons k ks ih =>
    obtain ⟨hpos, hcap, haddr, hrest⟩ := h
    rw [List.sum_cons, ← Nat.add_assoc] at h'
    exact ⟨hpos, hcap, haddr, ih hrest h'⟩

theorem Tiles.single (hpos : 0 < k) (hcap : k ∣ cap) (haddr : k ∣ addr) : Tiles cap addr [k] :=
  ⟨hpos, hcap, haddr, trivial⟩

end Tiles

section Transfers

open QemuBoard.Library.Action

variable {σ ε : Type} (write : Nat → Nat → Nat → Action σ ε Unit)
  (read : Nat → Nat → Action σ ε Nat)

def writeTiles : List Nat → Nat → List Nat → Action σ ε Unit
  | [], _, _ => pure ()
  | k :: ks, addr, bs => do
    write addr (Nat.ofDigits 256 (bs.take k)) k
    writeTiles ks (addr + k) (bs.drop k)

def readTiles : List Nat → Nat → Action σ ε (List Nat)
  | [], _ => pure []
  | k :: ks, addr => do
    let v ← read addr k
    let bs ← readTiles ks (addr + k)
    return leBytes k v ++ bs

variable {read} {ks ks' : List Nat} {addr : Nat} {bs : List Nat}

theorem writeTiles_append (ks' bs' : List Nat) (addr : Nat) (hlen : ks.sum = bs.length) :
    writeTiles write (ks ++ ks') addr (bs ++ bs') = (do
      writeTiles write ks addr bs
      writeTiles write ks' (addr + bs.length) bs') := by
  induction ks generalizing addr bs with
  | nil =>
    obtain rfl : bs = [] := List.length_eq_zero_iff.mp hlen.symm
    rw [writeTiles, ret_bind]
    rfl
  | cons k ks ih =>
    rw [List.sum_cons] at hlen
    have hk : k ≤ bs.length := by omega
    have hrest : ks.sum = (bs.drop k).length := by rw [List.length_drop]; omega
    have haddr : addr + k + (bs.drop k).length = addr + bs.length := by rw [List.length_drop]; omega
    rw [List.cons_append, writeTiles, writeTiles, List.take_append_of_le_length hk,
      List.drop_append_of_le_length hk, bind_assoc, ih _ hrest, haddr]

theorem readTiles_bind_congr {β : Type} {f g : List Nat → Action σ ε β}
    (h : ∀ bs : List Nat, bs.length = ks.sum → (∀ b ∈ bs, b < 256) → f bs = g bs) :
    (readTiles read ks addr >>= f) = readTiles read ks addr >>= g := by
  induction ks generalizing addr f g with
  | nil =>
    rw [readTiles, ret_bind, ret_bind]
    exact h [] rfl nofun
  | cons k ks ih =>
    simp only [readTiles, bind_assoc, ret_bind]
    refine congrArg (read addr k >>= ·)
      (funext fun v => ih fun bs hlen hbs => h _ ?_ fun b hb => ?_)
    · rw [List.length_append, length_leBytes, hlen, List.sum_cons]
    · exact (List.mem_append.mp hb).elim lt_of_mem_leBytes (hbs b)

theorem readTiles_append : readTiles read (ks ++ ks') addr = (do
    let bs ← readTiles read ks addr
    let bs' ← readTiles read ks' (addr + ks.sum)
    return bs ++ bs') := by
  induction ks generalizing addr with
  | nil =>
    rw [readTiles, ret_bind]
    exact (bind_ret _).symm
  | cons k ks ih =>
    rw [List.cons_append, readTiles, readTiles, List.sum_cons, ← Nat.add_assoc, ih]
    simp only [bind_assoc, ret_bind, List.append_assoc]

end Transfers

end QemuBoard.Library
