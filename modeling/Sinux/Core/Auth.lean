import Sinux.Crypto.Password
import Mathlib.Logic.Function.Basic

/-!
# Users (`kernel/core/auth.c`)

* `UserEntry`, `findUser`, `authAddUser`, `authSetPassword`, `authDelUser`, `authCheck`: the table
  `users[0 .. user_count)` as the calls change and read it. A call has no result where `kstrncpy` runs
  on because a name or a home directory does not fit. `auth_save` only reads the table.
* `Accounts`, `AuthCall.account`: what the table is for, a password for each name.
* `AuthRun`: calls in any order on both, from the table `auth_init` makes when there is no file.
* `auth_check_exact`: at any time a login passes exactly if its password has the digest of the one set
  last under that name.

**Out of scope**: the file `auth_save` writes and `auth_init` reads.
-/

namespace Sinux.Core

open Sinux.Crypto Sinux.Fs Function

def maxUsers : Nat := 64
def maxUsername : Nat := 32
def maxPassword : Nat := 128
def maxHomedir : Nat := 128

/-- `user_entry_t`. -/
structure UserEntry where
  username : Str
  password : Str
  uid : BitVec 32
  gid : BitVec 32
  home : Str
  shell : Str
  active : Bool

/-- The entry `auth_init` makes when there is none. -/
def rootEntry : UserEntry :=
  ⟨str ['r', 'o', 'o', 't'], [], 0, 0, str ['/', 'r', 'o', 'o', 't'],
    str ['/', 'b', 'i', 'n', '/', 's', 'h'], true⟩

/-- `find_user`: the index of the entry. -/
def findUser (us : List UserEntry) (name : Str) : Option (Fin us.length) :=
  us.findFinIdx? fun u => u.active && kstrcmp u.username name = 0

def authAddUser (ctx : Sha256Ctx) (user pass : Str) (uid : BitVec 32) (home : Str)
    (us : List UserEntry) : Option (Int × List UserEntry) :=
  if findUser us user ≠ none then some (-1, us)
  else if maxUsers ≤ us.length then some (-1, us)
  else do
    let username ← kstrncpy user maxUsername
    let password ← kstrncpy (sha256MakeHash ctx pass) maxPassword
    let home ← kstrncpy home maxHomedir
    return (0, us ++ [⟨username, password, uid, uid, home, rootEntry.shell, true⟩])

def authSetPassword (ctx : Sha256Ctx) (user pass : Str) (us : List UserEntry) :
    Option (List UserEntry) :=
  match findUser us user with
  | none => some us
  | some i => do
    let password ← kstrncpy (sha256MakeHash ctx pass) maxPassword
    return us.set i { us[i] with password }

def authDelUser (user : Str) (us : List UserEntry) : Int × List UserEntry :=
  if kstrcmp user rootEntry.username = 0 then (-1, us)
  else
    match findUser us user with
    | none => (-1, us)
    | some i => (0, us.set i { us[i] with active := false })

/-- `auth_check`: 64 characters stored are a digest, any other string is the password itself. -/
def authCheck (ctx : Sha256Ctx) (us : List UserEntry) (user pass : Str) : Bool :=
  match findUser us user with
  | none => false
  | some i =>
    if us[i].password.length = 0 ∧ pass.length = 0 then true
    else if us[i].password.length = 64 then sha256Verify ctx pass us[i].password
    else kstrcmp us[i].password pass = 0

/-- A call and its arguments. -/
inductive AuthCall where
  | addUser (user pass : Str) (uid : BitVec 32) (home : Str)
  | setPassword (user pass : Str)
  | delUser (user : Str)

/-- The value returned and the table; `auth_set_password` returns none. -/
def AuthCall.run (ctx : Sha256Ctx) (us : List UserEntry) : AuthCall → Option (Int × List UserEntry)
  | .addUser user pass uid home => authAddUser ctx user pass uid home us
  | .setPassword user pass => (authSetPassword ctx user pass us).map (0, ·)
  | .delUser user => some (authDelUser user us)

/-! ## Accounts -/

/-- How a user logs in: without a password, or with one that was chosen. -/
inductive Credential where
  | blank
  | chosen (password : Str)

def Credential.Accepts : Credential → Str → Prop
  | .blank, pass => pass = []
  | .chosen q, pass => stretched pass = stretched q

/-- The field `password` of the entry. -/
def Credential.text : Credential → Str
  | .blank => []
  | .chosen q => sha256ToHex (stretched q)

abbrev Accounts := Str → Option Credential

/-- What a call means for the accounts, by the value it returned. -/
def AuthCall.account (acc : Accounts) (ret : Int) : AuthCall → Accounts
  | .addUser user pass _ _ => if ret = 0 then update acc user (some (.chosen pass)) else acc
  | .setPassword user pass =>
    if (acc user).isSome then update acc user (some (.chosen pass)) else acc
  | .delUser user => if ret = 0 then update acc user none else acc

/-- A table and the accounts it stands for, after calls. -/
inductive AuthRun : List UserEntry → Accounts → Prop
  | init : AuthRun [rootEntry] (update (fun _ => none) rootEntry.username (some .blank))
  | call {us us' : List UserEntry} {acc : Accounts} {ctx : Sha256Ctx} {c : AuthCall} {ret : Int}
      (h : AuthRun us acc) (hc : c.run ctx us = some (ret, us')) : AuthRun us' (c.account acc ret)

/-- The passwords of the active entries with a name. -/
def passwords (us : List UserEntry) (name : Str) : List Str :=
  us.flatMap fun u => if u.active ∧ u.username = name then [u.password] else []

/-- What the table holds for an account. -/
def held (o : Option Credential) : List Str := (o.map Credential.text).toList

/-- **The table holds the accounts**: a name has an active entry, and only one, exactly if it has an
account. -/
def Keeps (us : List UserEntry) (acc : Accounts) : Prop := passwords us = held ∘ acc

section

variable {us us' : List UserEntry} {acc : Accounts} {name : Str}

theorem passwords_append (us : List UserEntry) {u : UserEntry} (hu : u.active) :
    passwords (us ++ [u]) =
      update (passwords us) u.username (passwords us u.username ++ [u.password]) := by
  funext name
  by_cases hname : name = u.username
  · subst hname
    simp [passwords, hu]
  · simp [passwords, hname, Ne.symm hname]

theorem findUser_none (h : findUser us name = none) : passwords us name = [] := by
  rw [passwords, List.flatMap_eq_nil_iff]
  intro u hu
  have := List.findFinIdx?_eq_none_iff.mp h u hu
  rw [Bool.and_eq_true, decide_eq_true_iff, kstrcmp_eq_zero] at this
  exact if_neg this

theorem passwords_set (us : List UserEntry) (i : Fin us.length) (u : UserEntry) (name : Str) :
    passwords (us.set i u) name = passwords (us.take i) name ++
      ((if u.active ∧ u.username = name then [u.password] else []) ++
        passwords (us.drop (i + 1)) name) := by
  rw [List.set_eq_take_append_cons_drop, if_pos i.isLt, passwords, List.flatMap_append,
    List.flatMap_cons]
  rfl

/-- The entry found, and what the table holds when another stands in its place. -/
theorem Keeps.found (h : Keeps us acc) {i : Fin us.length} (hi : findUser us name = some i) :
    (us[i].active ∧ us[i].username = name) ∧ (∃ c, acc name = some c ∧ us[i].password = c.text) ∧
      ∀ u', u'.username = name → passwords (us.set i u') =
        update (passwords us) name (if u'.active then [u'.password] else []) := by
  obtain ⟨hu, -⟩ := List.findFinIdx?_eq_some_iff.mp hi
  rw [Bool.and_eq_true, decide_eq_true_iff, kstrcmp_eq_zero] at hu
  -- the accounts leave room for one entry under the name, so there is none before or behind it
  have hus : ∀ n, passwords us n = passwords (us.set i us[i]) n := fun n => by simp
  have hname := congrFun h name
  rw [hus, passwords_set, if_pos hu] at hname
  cases hacc : acc name with
  | none => simp [held, hacc] at hname
  | some c =>
    rw [comp_apply, hacc, held, Option.map_some, Option.toList_some,
      List.append_eq_singleton_iff, List.singleton_append] at hname
    obtain ⟨hl, hp⟩ | ⟨-, hp⟩ := hname
    swap
    · cases hp
    obtain ⟨hp, hr⟩ := List.cons.inj hp
    refine ⟨hu, ⟨c, rfl, hp⟩, fun u' hu' => funext fun n => ?_⟩
    by_cases hn : n = name
    · subst hn
      rw [passwords_set, update_self, hl, hr]
      simp [hu']
    · have hne : ¬ name = n := fun e => hn e.symm
      rw [update_of_ne hn, hus, passwords_set, passwords_set, hu', hu.2]
      simp only [hne, and_false, if_false]

theorem Keeps.set (h : Keeps us acc) {i : Fin us.length} (hi : findUser us name = some i)
    (u' : UserEntry) (hname : u'.username = name) {o : Option Credential}
    (ho : held o = if u'.active then [u'.password] else []) :
    Keeps (us.set i u') (update acc name o) := by
  rw [Keeps, (h.found hi).2.2 u' hname, ← ho, h, comp_update]

theorem Keeps.findUser_none_iff (h : Keeps us acc) : findUser us name = none ↔ acc name = none := by
  cases hf : findUser us name with
  | none =>
    have hheld : held (acc name) = [] := (congrFun h name).symm.trans (findUser_none hf)
    simpa [held] using hheld
  | some i =>
    obtain ⟨-, ⟨c, hc, -⟩, -⟩ := h.found hf
    simp [hc]

theorem eq_of_kstrncpy {src dst : Str} {n : Nat} (h : kstrncpy src n = some dst) : dst = src := by
  unfold kstrncpy at h
  split at h <;> cases h
  rfl

/-- **One call** on the table is one on the accounts. -/
theorem Keeps.call (h : Keeps us acc) {ctx : Sha256Ctx} {c : AuthCall} {ret : Int}
    (hc : c.run ctx us = some (ret, us')) : Keeps us' (c.account acc ret) := by
  cases c with
  | addUser user pass uid home =>
    simp only [AuthCall.run, authAddUser] at hc
    split at hc
    · cases hc
      exact h
    · split at hc
      · cases hc
        exact h
      · next hfree _ =>
        obtain ⟨username, hname, hc⟩ := Option.bind_eq_some_iff.mp hc
        obtain ⟨password, hpass, hc⟩ := Option.bind_eq_some_iff.mp hc
        obtain ⟨home', -, hc⟩ := Option.bind_eq_some_iff.mp hc
        cases hc
        have hnone := h.findUser_none_iff.mp (not_not.mp hfree)
        rw [eq_of_kstrncpy hname, eq_of_kstrncpy hpass, sha256MakeHash_eq]
        unfold Keeps
        rw [passwords_append _ rfl, h, comp_apply, hnone, AuthCall.account, if_pos rfl, comp_update]
        rfl
  | setPassword user pass =>
    obtain ⟨us₁, hset, hret⟩ := Option.map_eq_some_iff.mp hc
    cases hret
    unfold authSetPassword at hset
    split at hset
    · next hf =>
      cases hset
      rw [AuthCall.account, h.findUser_none_iff.mp hf]
      exact h
    · next i hf =>
      obtain ⟨⟨hu, hname⟩, ⟨c, hacc, -⟩, -⟩ := h.found hf
      obtain ⟨password, hpass, hset⟩ := Option.bind_eq_some_iff.mp hset
      cases hset
      rw [AuthCall.account, hacc, Option.isSome_some, if_pos rfl, eq_of_kstrncpy hpass,
        sha256MakeHash_eq]
      exact h.set hf { us[i] with password := sha256ToHex (stretched pass) } hname (if_pos hu).symm
  | delUser user =>
    have hc := Option.some.inj hc
    unfold authDelUser at hc
    split at hc
    · cases hc
      exact h
    · split at hc
      · cases hc
        exact h
      · next i hf =>
        cases hc
        exact h.set hf { us[i] with active := false } (h.found hf).1.2 rfl

theorem keeps_of_run (h : AuthRun us acc) : Keeps us acc := by
  induction h with
  | init =>
    unfold Keeps
    rw [← List.nil_append [rootEntry], passwords_append [] rfl, comp_update]
    rfl
  | call _ hc ih => exact ih.call hc

/-- **Logins are exact**: after any calls, `auth_check` accepts a password exactly if the name has an
account and the password is the empty one of `root` at the start or has the digest of the one chosen
last. -/
theorem auth_check_exact (h : AuthRun us acc) (ctx : Sha256Ctx) (user pass : Str) :
    authCheck ctx us user pass = true ↔ ∃ c, acc user = some c ∧ c.Accepts pass := by
  have hk := keeps_of_run h
  unfold authCheck
  split
  · next hf => simp [hk.findUser_none_iff.mp hf]
  · next i hf =>
    obtain ⟨-, ⟨c, hacc, htext⟩, -⟩ := hk.found hf
    rw [hacc, htext]
    cases c with
    | blank =>
      by_cases hp : pass = []
      · simp [Credential.text, Credential.Accepts, hp]
      · simp [Credential.text, Credential.Accepts, kstrcmp_eq_zero, hp, Ne.symm hp]
    | chosen q =>
      have hlen : (sha256ToHex (stretched q)).length = 64 := by
        rw [← sha256MakeHash_eq ctx, length_sha256MakeHash]
      rw [Credential.text, hlen, if_neg (by simp), if_pos rfl, sha256Verify_iff]
      simp [Credential.Accepts]

end

/-- A user who was added gets in. -/
theorem auth_check_exact_added : ∃ us acc ctx, AuthRun us acc ∧
    authCheck ctx us (str ['u']) (str ['p']) = true := by
  let ctx : Sha256Ctx := ⟨fun _ => 0, 0, 0, fun _ => 0⟩
  have hfree : findUser [rootEntry] (str ['u']) = none := by decide
  have hadd : (AuthCall.addUser (str ['u']) (str ['p']) 1 []).run ctx [rootEntry] = some (0,
      [rootEntry, ⟨str ['u'], sha256MakeHash ctx (str ['p']), 1, 1, [], rootEntry.shell, true⟩]) := by
    rw [AuthCall.run, authAddUser, if_neg (not_not.mpr hfree), if_neg (by decide),
      kstrncpy_of_lt (by decide), kstrncpy_of_lt (by rw [length_sha256MakeHash]; decide)]
    rfl
  have hrun := AuthRun.init.call hadd
  rw [AuthCall.account, if_pos rfl] at hrun
  exact ⟨_, _, ctx, hrun, (auth_check_exact hrun ctx _ _).mpr ⟨_, update_self .., rfl⟩⟩

end Sinux.Core
