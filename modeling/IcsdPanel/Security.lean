-- Passwords, tokens and one-time codes. Hashes, random draws, the clock and the
-- tables of Unicode come from outside.
import IcsdPanel.Texts
import Mathlib.Order.Monotone.Defs

open texts

namespace icsd_panel.security

/-- What the hub takes from the system and its libraries. -/
structure Env where
  /-- `db.now()`, `int(time.time())`: the clock at its readings, one after the other -/
  time : Nat → Nat
  /-- `secrets.token_urlsafe(nbytes)`, at its draws -/
  tokenUrlsafe : Nat → Nat → Str
  /-- `new_totp_secret()`: twenty random bytes in base32, at its draws -/
  newTotpSecret : Nat → Str
  /-- `hash_password(password)` with a salt that is drawn -/
  hashPassword : Str → Nat → Str
  /-- `bcrypt.checkpw(password, hashed)`, or that it raises -/
  checkpw : Str → Str → Option Bool
  /-- `sha256(value)` in hexadecimal digits -/
  sha256 : Str → Str
  /-- `hmac.new(key, counter, sha1)` with a key in base32: the bytes of the digest -/
  hmacSha1 : Str → Nat → List Nat
  /-- `str.lower` -/
  lower : Str → Str
  /-- `str.isdigit` of a character -/
  isdigit : Char → Bool
  /-- `str.isalnum` of a character -/
  isalnum : Char → Bool

/-- The clock as the `n`-th request reads it for the `k`-th time. No request reads it
five times. -/
def Env.now (e : Env) (n k : Nat) : Nat := e.time (4 * n + k)

/-- The clock is not set back. -/
def Env.Ordered (e : Env) : Prop := Monotone e.time

def minPassword : Nat := 10

/-- `verify_password` -/
def verifyPassword (e : Env) (password hashed : Str) : Bool := (e.checkpw password hashed).getD false

/-- `token(nbytes)` -/
def token (e : Env) (nbytes draw : Nat) : Str := e.tokenUrlsafe nbytes draw

/-- The first `n` draws are all different. -/
def Distinct (draw : Nat → Str) (n : Nat) : Prop := ∀ i < n, ∀ j < i, draw j ≠ draw i

instance (draw : Nat → Str) (n : Nat) : Decidable (Distinct draw n) :=
  inferInstanceAs (Decidable (∀ i < n, ∀ j < i, _))

theorem Distinct.mono {draw : Nat → Str} {n m : Nat} (h : Distinct draw m) (hnm : n ≤ m) : Distinct draw n :=
  fun i hi => h i (Nat.lt_of_lt_of_le hi hnm)

/-! ## One-time codes -/

/-- An error that no handler expects. -/
inductive Crash
  | typeError | attributeError | integrityError
deriving DecidableEq, Repr

/-- `_hotp`: six digits of four bytes of the digest. -/
def hotp (e : Env) (secret : Str) (counter : Nat) : Str :=
  let digest := e.hmacSha1 secret counter
  let off := digest.getLast?.getD 0 % 16
  let word := ((digest.drop off).take 4).foldl (fun n b => n * 256 + b) 0
  (Nat.toDigits 10 (word % 0x80000000 % 1000000)).leftpad 6 '0'

/-- A code without the white space that people type. -/
def cleanCode (code : Str) : Str := (strip code).filter (· ≠ ' ')

/-- Six characters that `isdigit` takes for digits. -/
def sixDigits (e : Env) (code : Str) : Bool := code.length = 6 && code.all e.isdigit

def isAscii (code : Str) : Bool := code.all fun c => c.toNat < 128

/-- The time steps of which the code is accepted. Before the first step comes
none: it is not above a last step either. -/
def window (now : Nat) : List Nat := [now / 30 - 1, now / 30, now / 30 + 1]

/-- The loop of `verify_totp`. `compare_digest` raises for strings that are not
ASCII. -/
def matchStep (e : Env) (secret : Option Str) (code : Str) (last : Nat) : List Nat → Except Crash Nat
  | [] => .ok 0
  | s :: steps =>
    if last < s then
      match secret with
      | none => .error .attributeError
      | some key =>
        if !isAscii code then .error .typeError
        else if hotp e key s = code then .ok s
        else matchStep e secret code last steps
    else matchStep e secret code last steps

/-- `verify_totp`: the step that the code is of, or 0. -/
def verifyTotp (e : Env) (secret : Option Str) (code : Str) (last now : Nat) : Except Crash Nat :=
  let code := cleanCode code
  if !sixDigits e code then .ok 0 else matchStep e secret code last (window now)

/-- `verify_totp` comes to compare the code. -/
def compares (e : Env) (code : Str) (last now : Nat) : Bool :=
  sixDigits e (cleanCode code) && (window now).any fun s => last < s

/-- The code is one of the secret, of a step near the time. -/
structure Valid (e : Env) (secret : Str) (step : Nat) (code : Str) (now : Nat) : Prop where
  near : step ∈ window now
  code : hotp e secret step = cleanCode code

variable {e : Env} {secret : Option Str} {code : Str} {last now s : Nat} {steps : List Nat}

theorem matchStep_ok (h : matchStep e secret code last steps = .ok s) (hs : s ≠ 0) :
    ∃ key, secret = some key ∧ last < s ∧ s ∈ steps ∧ hotp e key s = code := by
  induction steps with
  | nil =>
    cases h
    exact absurd rfl hs
  | cons a steps ih =>
    unfold matchStep at h
    by_cases ha : last < a
    · rw [if_pos ha] at h
      cases secret with
      | none => simp at h
      | some key =>
        simp only at h
        split at h
        · simp at h
        · split at h
          · rename_i hc
            cases h
            exact ⟨key, rfl, ha, by simp, hc⟩
          · obtain ⟨key', hkey, hlt, hmem, hc⟩ := ih h
            exact ⟨key', hkey, hlt, List.mem_cons_of_mem a hmem, hc⟩
    · rw [if_neg ha] at h
      obtain ⟨key, hkey, hlt, hmem, hc⟩ := ih h
      exact ⟨key, hkey, hlt, List.mem_cons_of_mem a hmem, hc⟩

/-- An accepted code is valid and above the last step. -/
theorem verifyTotp_ok (h : verifyTotp e secret code last now = .ok s) (hs : s ≠ 0) :
    ∃ key, secret = some key ∧ last < s ∧ Valid e key s code now := by
  unfold verifyTotp at h
  simp only at h
  split at h
  · cases h
    exact absurd rfl hs
  · obtain ⟨key, hkey, hlt, hmem, hc⟩ := matchStep_ok h hs
    exact ⟨key, hkey, hlt, hmem, hc⟩

/-- With a secret only a comparison of foreign digits raises. -/
theorem verifyTotp_error {key : Str} {c : Crash} (h : verifyTotp e (some key) code last now = .error c) :
    compares e code last now ∧ isAscii (cleanCode code) = false := by
  unfold verifyTotp at h
  simp only at h
  split at h
  · simp at h
  · rename_i hsix
    have hloop : ∀ steps, matchStep e (some key) (cleanCode code) last steps = .error c →
        (steps.any fun s => last < s) ∧ isAscii (cleanCode code) = false := by
      intro steps
      induction steps with
      | nil =>
        intro h
        simp [matchStep] at h
      | cons a steps ih =>
        intro h
        unfold matchStep at h
        by_cases ha : last < a
        · rw [if_pos ha] at h
          simp only at h
          split at h
          · rename_i hascii
            exact ⟨by simp [ha], by simpa using hascii⟩
          · split at h
            · simp at h
            · obtain ⟨hany, hascii⟩ := ih h
              exact ⟨by simp [ha], hascii⟩
        · rw [if_neg ha] at h
          obtain ⟨hany, hascii⟩ := ih h
          exact ⟨by simp only [List.any_cons, hany, Bool.or_true], hascii⟩
    obtain ⟨hany, hascii⟩ := hloop _ h
    refine ⟨?_, hascii⟩
    unfold compares
    rw [hany]
    simpa using hsix

/-! ## A system with known values -/

def someToken : Str := "Zk3vT1qLr8YwX0cN5bHsGd7PfJmEaU2o".toList

def someSecret : Str := "rV4yQb9TnKx2LhWc8ZsPfGj1MdEaUo6YtR3iXqNv5Bk".toList

def tokenDigest : Str := "1bcbb88c944c0794defec259ca9c543359888e5cd89527864c5b88d2fba9c27f".toList

def secretDigest : Str := "5c6e5c7c7b1b4a4f30dc603b5f596a42b61d52ebdaf824af4a866ff6cb5a0401".toList

/-- SHA-256 of the two. -/
def sampleSha256 (s : Str) : Str :=
  if s = someToken then tokenDigest else if s = someSecret then secretDigest else '#' :: s

theorem sampleSha256_injective : Function.Injective sampleSha256 := by
  have hdigests : tokenDigest ≠ secretDigest := by decide +kernel
  have htoken : ∀ s, tokenDigest ≠ '#' :: s := by
    intro s h
    have hhead : tokenDigest.head? = some '1' := by decide +kernel
    rw [h] at hhead
    cases hhead
  have hsecret : ∀ s, secretDigest ≠ '#' :: s := by
    intro s h
    have hhead : secretDigest.head? = some '5' := by decide +kernel
    rw [h] at hhead
    cases hhead
  intro a b h
  unfold sampleSha256 at h
  split at h
  · split at h
    · rename_i h1 h2
      rw [h1, h2]
    · split at h
      · exact absurd h hdigests
      · exact absurd h (htoken b)
  · split at h
    · split at h
      · exact absurd h.symm hdigests
      · split at h
        · rename_i h1 _ h2
          rw [h1, h2]
        · exact absurd h (hsecret b)
    · split at h
      · exact absurd h.symm (htoken a)
      · split at h
        · exact absurd h.symm (hsecret a)
        · exact (List.cons.inj h).2

theorem sampleSha256_ne_nil (s : Str) : sampleSha256 s ≠ [] := by
  unfold sampleSha256
  split
  · decide +kernel
  · split
    · decide +kernel
    · simp

def totpSecretA : Str := "JBSWY3DPEHPK3PXPMFZWIZTHNBUWU23M".toList

def totpSecretB : Str := "GEZDGNBVGY3TQOJQGEZDGNBVGY3TQOJQ".toList

/-- HMAC-SHA1 under the two secrets, of the counters from 58333332 on. -/
def digestsA : List Nat :=
  [
    0x4e0b4ef35be8a2bb5f66aca5c285448e4ae15a57, 0xf67b82d803e39470a5c6cb1558c674bd377e588c,
    0x185dcb20b3d1f3c4269e1ae07164ea32779ddc64, 0x3e4a307cd165d6c12522c3b0907a25a0f0f26c22,
    0xc118f97ef611a81fd9475a9be2f79055e93b9ad8, 0xf02f1e82f55e2c44e55f5fe6769f069bc039c9b9,
    0xefe4f5ca5d23641d83bc60e9dd4d792b09a8a169, 0xfa7754f984b814157371365ef4e77a98c7abcd55,
    0x80ca031fb3ddeca8121292afaac9d9537a142319, 0x8767801192be7b79d1569019b4395b748e970fae,
    0xc56860c34cc327ee4e5587a5b80c055bd20e1fc0, 0xa430db2a049377e8627edb0ac6141288e6932927,
    0x0e22a068fbef05164dda9a55e4253f40d1eb8348, 0x215813660da957dc387e8034a89e286ae94aafbd,
    0x7888b120e2d666c19cda7f12288a6cda25e31238, 0xf6398685ab1cedb18e29be5576202b79b0d0fdd4,
    0x14aabff3a9dc5f0fdb65c70c193004694a856273, 0xfe487d46a36af65615ea2c4fb3e0064a5e8c8cce]

def digestsB : List Nat :=
  [
    0x32a688274b81a95bf51ae518d9b90317f0738191, 0x166bd9e085952413594aa6bc9c1b479f1009b5fd,
    0x20bd8788b862fb294a1e4bf961ce58d6156ad0c4, 0xdcef297979ffe4ef5eadbf275d10e09ec18a0c0a,
    0x320b6270bc3922298e62832c6270f3f7ea3b514d, 0x078258795e962a5b426cbd37f7da406d22b36361,
    0xdd838ceee4fb3c57869451e18bf80fb2ed5f01f6, 0xc215d1a8f0261aec11ce3ce8f86eb4d361190e85,
    0xc1512220ba6af6a72b6456a8013fc7deea757f73, 0x33a0e9a5a3912e403222813f5b7870aa36cde55f,
    0x12d0ccb39097ec2e505af8127592456e243db16f, 0x442b867d080de2d343917f096429394bb765ae6f]

/-- The last `k` bytes of a number, in the order of the network. -/
def bytesOf (n : Nat) : Nat → List Nat
  | 0 => []
  | k + 1 => bytesOf (n / 256) k ++ [n % 256]

/-- A string of a draw, as long as the sample: the first letters are its own. -/
def redrawn (sample : Str) (draw : Nat) : Str :=
  '7' :: "ABCDEFGHIJKLMNOPQRSTUVWXYZ234567".toList.getD draw 'A' :: sample.drop 2

/-- A system with a clock. Its draws of tokens and secrets are these, in requests
that use them, and else others of their length. -/
def sampleEnv (time : Nat → Nat) : Env where
  time := time
  tokenUrlsafe nbytes draw :=
    if nbytes = 24 then if draw = 0 then someToken else redrawn someToken draw
    else if draw = 1 then someSecret else redrawn someSecret draw
  newTotpSecret draw :=
    if draw = 3 then totpSecretA else if draw = 6 then totpSecretB else redrawn totpSecretA draw
  hashPassword password _ := "$2b$12$".toList ++ password
  checkpw password hashed := some (hashed = "$2b$12$".toList ++ password)
  sha256 := sampleSha256
  hmacSha1 secret counter :=
    if secret = totpSecretA then bytesOf (digestsA.getD (counter - 58333332) 0) 20
    else if secret = totpSecretB then bytesOf (digestsB.getD (counter - 58333332) 0) 20
    else []
  lower s := s.map Char.toLower
  isdigit c := c.isDigit || (0x660 ≤ c.toNat && c.toNat ≤ 0x669)
  isalnum := Char.isAlphanum

end icsd_panel.security
