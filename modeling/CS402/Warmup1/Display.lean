import CS402.My402List.Sequence

/-!
# The table of `warmup1`

`displayResult` of `warmup1/warmup1.c` prints one row for each transaction of a list, with
the amount and the balance so far.  A column is the text between two bars without the
blanks next to them, in the locale `en_US`; the columns of the date and the description are
left out.

The balance is a `long` to which amounts of type `unsigned long` are added, and a withdrawal
is added as the unsigned number `amount * -1`.  No list is long enough for the sum to
overflow.  The question marks, though, are printed from 10,000,000 *cents* on, and never for
a negative balance, and a balance of zero is put in parentheses.
-/

namespace CS402.My402

open CS402.Lib

/-- `bankData`. -/
structure BankData where
  symbol : Char
  time : ℤ
  amount : ℕ
  description : List Char

/-- The amount with its sign. -/
def BankData.signed (d : BankData) : ℤ := if d.symbol = '+' then d.amount else -d.amount

/-- A transaction of the program: a deposit or a withdrawal of less than ten million. -/
def BankData.Valid (d : BankData) : Prop :=
  (d.symbol = '+' ∨ d.symbol = '-') ∧ d.amount < 10 ^ 9

namespace Warmup1

/-! ## Numbers as text -/

/-- A comma after every third digit, from the last digit on. -/
def groups : List Char → List Char
  | a :: b :: c :: d :: l => a :: b :: c :: ',' :: groups (d :: l)
  | l => l

/-- The conversion `%'wld` of `printf`. -/
def conversion (w : ℕ) (n : ℤ) : List Char :=
  List.leftpad w ' ' ((if n < 0 then ['-'] else []) ++
    (groups (Nat.toDigits 10 n.natAbs).reverse).reverse)

/-- A number with its two decimal places, without parentheses. -/
def plain (n : ℤ) (decimals : List Char) : List Char :=
  conversion 10 n ++ '.' :: decimals ++ [' ']

/-- A number with its two decimal places, in parentheses. -/
def bracketed (n : ℤ) (decimals : List Char) : List Char :=
  '(' :: (conversion 9 n ++ '.' :: decimals ++ [')'])

/-- `question_display`. -/
def marks : List Char := [' ', '?', ',', '?', '?', '?', ',', '?', '?', '?', '.', '?', '?', ' ']

/-! ## `displayResult` -/

/-- `GetNegativeFlag`. -/
def getNegativeFlag (c : Char) : Bool := c ≠ '+'

/-- `GetDecimal`. -/
def getDecimal (amount : ℕ) : List Char :=
  Nat.toDigits 10 (amount / 10 % 10) ++ Nat.toDigits 10 (amount % 10)

/-- `GetAmount`. -/
def getAmount (amount : ℕ) : ℕ × List Char := (amount / 100, getDecimal amount)

/-- `GetBalanceDecimalValues`. -/
def getBalanceDecimalValues (balance : ℤ) : List Char :=
  Nat.toDigits 10 ((balance.tdiv 10).tmod 10).natAbs ++ Nat.toDigits 10 (balance.tmod 10).natAbs

/-- Conversion to `long`. -/
def long (n : ℤ) : ℤ := n.bmod (2 ^ 64)

/-- `GetBalance`. -/
def getBalance (flag : Bool) (balance : ℤ) (amount : ℕ) : ℤ × List Char :=
  let amount : ℕ := if flag then (2 ^ 64 - amount) % 2 ^ 64 else amount
  let balance := long (balance + amount)
  (balance, getBalanceDecimalValues balance)

/-- The amount, as every call of `printf` in `displayResult` prints it. -/
def amountColumn (flag : Bool) (amountprev : ℕ) (decimals : List Char) : List Char :=
  if flag then bracketed amountprev decimals else plain amountprev decimals

/-- The balance, with the cases of `displayResult`. -/
def balanceColumn (balance : ℤ) (decimals : List Char) : List Char :=
  if balance < 10000000 then
    if balance > 0 then plain (balance.tdiv 100) decimals
    else bracketed ((long (balance * -1)).tdiv 100) decimals
  else marks

/-- The loop of `displayResult`. -/
def displayLoop (data : Obj → BankData) (anchor : Addr) (s : My402List) :
    ℕ → Addr → ℤ → Except Fault (List (List Char × List Char))
  | 0, _, _ => .error .divergence
  | n + 1, temp, balance => do
    if (← s.getNext temp) ≠ (← s.getNext anchor) then
      let transaction := data (← s.getObj temp)
      let flag := getNegativeFlag transaction.symbol
      let (amountprev, amountDecimals) := getAmount transaction.amount
      let (balance, balanceDecimals) := getBalance flag balance transaction.amount
      let rows ← displayLoop data anchor s n (← s.getNext temp) balance
      return (amountColumn flag amountprev amountDecimals,
        balanceColumn balance balanceDecimals) :: rows
    else return []

/-- The amounts and balances that `displayResult` prints. -/
def displayResult (data : Obj → BankData) (anchor : Addr) (s : My402List) :
    Except Fault (List (List Char × List Char)) := do
  displayLoop data anchor s turns (← s.getNext anchor) 0

/-! ## Reading a column back -/

/-- What stands in a column beside the number. -/
def decoration : List Char := [' ', ',', '(', ')']

/-- The number that a column shows, in cents: digits, a period and two more digits. -/
def cents (column : List Char) : Option ℕ :=
  match (column.filter (· ∉ decoration)).reverse with
  | y :: x :: point :: whole =>
    if point = '.' ∧ whole ≠ [] ∧ (y :: x :: whole).all Char.isDigit then
      some (Nat.ofDigitChars 10 (whole.reverse ++ [x, y]) 0)
    else none
  | _ => none

/-- The column is in parentheses. -/
def Bracketed (column : List Char) : Prop := column.head? = some '(' ∧ column.getLast? = some ')'

theorem filter_groups (f : Char → Bool) (hf : f ',' = false) (l : List Char) :
    (groups l).filter f = l.filter f := by
  fun_induction groups l with
  | case1 a b c d l ih => simp [List.filter_cons, ih, hf]
  | case2 l => rfl

theorem digit_kept {x : Char} (hx : x.isDigit = true) : x ∉ decoration := by
  intro hmem
  simp only [decoration, List.mem_cons, List.not_mem_nil, or_false] at hmem
  rcases hmem with rfl | rfl | rfl | rfl <;> exact absurd hx (by decide)

theorem filter_toDigits (n : ℕ) : (Nat.toDigits 10 n).filter (· ∉ decoration) = Nat.toDigits 10 n :=
  List.filter_eq_self.mpr fun _ hx ↦
    decide_eq_true (digit_kept (Nat.isDigit_of_mem_toDigits (by decide) (by decide) hx))

theorem filter_conversion (w n : ℕ) :
    (conversion w n).filter (· ∉ decoration) = Nat.toDigits 10 n := by
  unfold conversion List.leftpad
  rw [if_neg (by omega), List.nil_append, List.filter_append, List.filter_replicate,
    List.filter_reverse, filter_groups _ (by decide), List.filter_reverse, List.reverse_reverse,
    Int.natAbs_natCast, filter_toDigits]
  rfl

theorem getDecimal_eq (n : ℕ) : getDecimal n = [(n / 10 % 10).digitChar, (n % 10).digitChar] := by
  unfold getDecimal
  rw [Nat.toDigits_of_lt_base (Nat.mod_lt _ (by decide)),
    Nat.toDigits_of_lt_base (Nat.mod_lt _ (by decide))]
  rfl

/-- **A number is read back from its column.** -/
theorem cents_column {l r : List Char} (hl : ∀ x ∈ l, x ∈ decoration) (hr : ∀ x ∈ r, x ∈ decoration)
    (w n : ℕ) : cents (l ++ conversion w ↑(n / 100) ++ '.' :: getDecimal n ++ r) = some n := by
  have hdrop : ∀ l : List Char, (∀ x ∈ l, x ∈ decoration) → l.filter (· ∉ decoration) = [] :=
    fun l hl ↦ List.filter_eq_nil_iff.mpr fun x hx ↦ by simpa using hl x hx
  have hd : ∀ k, (k % 10).digitChar.isDigit = true := fun k ↦ by
    rw [Nat.isDigit_digitChar]
    exact decide_eq_true (Nat.mod_lt _ (by decide))
  have hfilter : (l ++ conversion w ↑(n / 100) ++ '.' :: getDecimal n ++ r).filter
      (· ∉ decoration) = Nat.toDigits 10 (n / 100) ++ '.' :: getDecimal n := by
    rw [List.filter_append, List.filter_append, List.filter_append, hdrop l hl, hdrop r hr,
      filter_conversion, getDecimal_eq]
    simp [digit_kept (hd _), show '.' ∉ decoration by decide]
  unfold cents
  rw [hfilter, getDecimal_eq]
  simp only [List.reverse_append, List.reverse_cons, List.reverse_nil, List.nil_append,
    List.cons_append, List.reverse_reverse]
  have hdigits : ∀ x ∈ (n % 10).digitChar :: (n / 10 % 10).digitChar ::
      (Nat.toDigits 10 (n / 100)).reverse, x.isDigit = true := by
    simp only [List.mem_cons, List.mem_reverse]
    rintro x (rfl | rfl | hx)
    · exact hd _
    · exact hd _
    · exact Nat.isDigit_of_mem_toDigits (by decide) (by decide) hx
  rw [if_pos ⟨trivial, by simp [Nat.toDigits_ne_nil], List.all_eq_true.mpr hdigits⟩,
    Nat.ofDigitChars_append, Nat.ofDigitChars_toDigits (by decide) (by decide), Nat.ofDigitChars_cons,
    Nat.ofDigitChars_cons, Nat.ofDigitChars_nil,
    Nat.toNat_digitChar_of_lt_ten (Nat.mod_lt (n / 10) (by decide)),
    Nat.toNat_digitChar_of_lt_ten (Nat.mod_lt n (by decide)), show '0'.toNat = 48 by rfl]
  congr 1
  omega

theorem cents_plain (n : ℕ) : cents (plain ↑(n / 100) (getDecimal n)) = some n :=
  cents_column (l := []) (by simp) (by simp [decoration]) 10 n

theorem cents_bracketed (n : ℕ) : cents (bracketed ↑(n / 100) (getDecimal n)) = some n :=
  cents_column (l := ['(']) (r := [')']) (by simp [decoration]) (by simp [decoration]) 9 n

theorem bracketed_bracketed (n : ℤ) (l : List Char) : Bracketed (bracketed n l) :=
  ⟨rfl, by simp [bracketed, List.getLast?_cons]⟩

theorem not_bracketed_plain (n : ℤ) (l : List Char) : ¬ Bracketed (plain n l) :=
  fun h ↦ by simp [plain, Bracketed, List.getLast?_cons] at h

/-! ## The rows -/

/-- The amount of a transaction is in its column, in parentheses for a withdrawal. -/
def AmountExact (d : BankData) (column : List Char) : Prop :=
  cents column = some d.amount ∧ (Bracketed column ↔ d.symbol = '-')

/-- The balance is in its column, in parentheses if it is negative; from ten million on
there are question marks. -/
structure BalanceExact (b : ℤ) (column : List Char) : Prop where
  marks : column = marks ↔ 10 ^ 9 ≤ b.natAbs
  value : b.natAbs < 10 ^ 9 → cents column = some b.natAbs ∧ (Bracketed column ↔ b < 0)

/-- The balances that are shown as they should be. -/
def Shown (b : ℤ) : Prop := (-10 ^ 9 < b ∧ b < 10 ^ 7 ∧ b ≠ 0) ∨ 10 ^ 9 ≤ b

/-- The row of a transaction with a balance. -/
def row (d : BankData) (b : ℤ) : List Char × List Char :=
  (amountColumn (getNegativeFlag d.symbol) (getAmount d.amount).1 (getAmount d.amount).2,
    balanceColumn b (getBalanceDecimalValues b))

theorem row_amount_exact {d : BankData} (hd : d.Valid) (b : ℤ) : AmountExact d (row d b).1 := by
  unfold row amountColumn getNegativeFlag getAmount
  rcases hd.1 with h | h
  · rw [h]
    exact ⟨cents_plain _, iff_of_false (not_bracketed_plain _ _) (by rw [h]; decide)⟩
  · rw [h]
    exact ⟨cents_bracketed _, iff_of_true (bracketed_bracketed _ _) h⟩

theorem getBalanceDecimalValues_eq (b : ℤ) : getBalanceDecimalValues b = getDecimal b.natAbs := by
  unfold getBalanceDecimalValues getDecimal
  rw [Int.natAbs_tmod, Int.natAbs_tmod, Int.natAbs_tdiv]
  rfl

theorem cents_marks : cents marks = none := by decide +kernel

theorem long_of_range {n : ℤ} (h : n.natAbs < 2 ^ 63) : long n = n :=
  Int.bmod_eq_of_le (by omega) (by omega)

variable {b : ℤ}

theorem row_balance_exact_iff (d : BankData) (hb : b.natAbs < 2 ^ 63) :
    BalanceExact b (row d b).2 ↔ Shown b := by
  have hmarks : ∀ {column : List Char}, cents column = some b.natAbs → column ≠ marks := by
    rintro _ hc rfl
    cases cents_marks.symm.trans hc
  unfold row balanceColumn Shown
  rw [getBalanceDecimalValues_eq]
  split
  · split
    · next hlt hpos =>
      have hdiv : b.tdiv 100 = ↑(b.natAbs / 100) := by
        rw [Int.tdiv_eq_ediv_of_nonneg (by omega)]
        omega
      have habs : b.natAbs < 10 ^ 9 := by omega
      rw [hdiv]
      have hc := cents_plain b.natAbs
      refine iff_of_true ⟨iff_of_false (hmarks hc) habs.not_ge, fun _ ↦ ⟨hc, ?_⟩⟩ (by omega)
      exact iff_of_false (not_bracketed_plain _ _) (by omega)
    · next hlt hpos =>
      have hdiv : (long (b * -1)).tdiv 100 = ↑(b.natAbs / 100) := by
        rw [long_of_range (by omega), Int.tdiv_eq_ediv_of_nonneg (by omega)]
        omega
      rw [hdiv]
      have hc := cents_bracketed b.natAbs
      refine ⟨fun h ↦ ?_, fun h ↦ ?_⟩
      · have habs : b.natAbs < 10 ^ 9 := not_le.mp fun hle ↦ hmarks hc (h.marks.mpr hle)
        have hneg := (h.value habs).2.mp (bracketed_bracketed _ _)
        omega
      · have habs : b.natAbs < 10 ^ 9 := by omega
        refine ⟨iff_of_false (hmarks hc) habs.not_ge, fun _ ↦ ⟨hc, ?_⟩⟩
        exact iff_of_true (bracketed_bracketed _ _) (by omega)
  · next hge =>
    refine ⟨fun h ↦ ?_, fun h ↦ ?_⟩
    · have hle := h.marks.mp rfl
      omega
    · refine ⟨iff_of_true rfl (by omega), fun hlt ↦ ?_⟩
      omega

/-- The balance after some transactions. -/
def balanceOf (data : Obj → BankData) (xs : List Obj) : ℤ := (xs.map fun o ↦ (data o).signed).sum

variable {data : Obj → BankData}

theorem balanceOf_nil : balanceOf data [] = 0 := rfl

variable {xs : List Obj}

theorem balanceOf_cons {o : Obj} :
    balanceOf data (o :: xs) = (data o).signed + balanceOf data xs := List.sum_cons

theorem getBalance_of_range {d : BankData} (hd : d.Valid)
    (hb : (b + d.signed).natAbs < 2 ^ 63) :
    getBalance (getNegativeFlag d.symbol) b d.amount =
      (b + d.signed, getBalanceDecimalValues (b + d.signed)) := by
  have hlong : long (b + ↑(if getNegativeFlag d.symbol then (2 ^ 64 - d.amount) % 2 ^ 64
      else d.amount)) = b + d.signed := by
    rw [← long_of_range hb]
    unfold BankData.signed getNegativeFlag long
    rcases hd.1 with h | h
    · simp [h]
    · have hamount := hd.2
      rw [h, if_pos (by decide), if_neg (by decide)]
      rw [← Int.emod_bmod, ← Int.emod_bmod (b + _)]
      congr 1
      omega
  unfold getBalance
  simp only [hlong]

/-- **The loop prints a row for each transaction that is left.** -/
theorem displayLoop_ok {anchor : Addr} {c : Obj} {s : My402List}
    {p l₁ l₂ : List Addr} {ys : List Obj} {n : ℕ} (h : Represents anchor c s p xs)
    (hp : p = l₁ ++ l₂) (hys : l₂.map s.obj = ys.map some) (hn : l₂.length < n)
    (hvalid : ∀ o ∈ ys, (data o).Valid) (hb : b.natAbs + 10 ^ 9 * ys.length < 2 ^ 63) :
    ∃ rows, displayLoop data anchor s n (l₂.headD anchor) b = .ok rows ∧
      rows.length = ys.length ∧ ∀ i o row, ys[i]? = some o → rows[i]? = some row →
        AmountExact (data o) row.1 ∧
          (BalanceExact (b + balanceOf data (ys.take (i + 1))) row.2 ↔
            Shown (b + balanceOf data (ys.take (i + 1)))) := by
  have hfirst := h.ring.next_anchor
  induction l₂ generalizing l₁ n ys b with
  | nil =>
    obtain ⟨n, rfl⟩ := Nat.exists_eq_succ_of_ne_zero hn.ne'
    obtain rfl : ys = [] := by simpa using hys.symm
    refine ⟨[], ?_, rfl, by simp⟩
    simp [displayLoop, My402List.getNext_ok hfirst, pure, Except.pure]
  | cons t l₂ ih =>
    obtain ⟨n, rfl⟩ := Nat.exists_eq_succ_of_ne_zero (Nat.ne_zero_of_lt hn)
    obtain ⟨o, ys, rfl⟩ : ∃ o ys', ys = o :: ys' := by
      cases ys with
      | nil => simp at hys
      | cons o ys => exact ⟨o, ys, rfl⟩
    rw [List.map_cons, List.map_cons, List.cons.injEq] at hys
    have hd := hvalid o List.mem_cons_self
    have hsigned : (data o).signed.natAbs < 10 ^ 9 := by
      have hlt := hd.2
      unfold BankData.signed
      split <;> omega
    rw [List.length_cons] at hb
    have hnext : s.next t = some (l₂.headD anchor) := (hp ▸ h.ring).next_node l₁
    obtain ⟨rows, hrows, hlen, hrest⟩ := ih (b := b + (data o).signed)
      (show p = (l₁ ++ [t]) ++ l₂ by simp [hp]) hys.2 (Nat.lt_of_succ_lt_succ hn)
      (fun o ho ↦ hvalid o (List.mem_cons_of_mem _ ho)) (by omega)
    have hbal := getBalance_of_range hd (b := b) (by omega)
    refine ⟨row (data o) (b + (data o).signed) :: rows, ?_, congrArg Nat.succ hlen, fun i ↦ ?_⟩
    · simp only [displayLoop, List.headD_cons, My402List.getNext_ok hnext,
        My402List.getNext_ok hfirst, My402List.getObj_ok hys.1, ok_bind, ne_eq, h.ne_first hp,
        not_false_eq_true, if_true, hbal, hrows]
      rfl
    · rw [List.take_succ_cons, balanceOf_cons, ← add_assoc]
      cases i with
      | zero =>
        rintro _ _ ⟨⟩ ⟨⟩
        rw [List.take_zero, balanceOf_nil, add_zero]
        exact ⟨row_amount_exact hd _, row_balance_exact_iff _ (by omega)⟩
      | succ i => exact hrest i

/-- **The columns are exact for the balances that are shown, and for no others.**  There is a
row for each transaction, and the amount is right in all of them. -/
theorem displayResult_exact_iff {anchor : Addr} {c : Obj} {s : My402List}
    {p : List Addr} (h : Represents anchor c s p xs)
    (hvalid : ∀ o ∈ xs, (data o).Valid) :
    ∃ rows, displayResult data anchor s = .ok rows ∧ rows.length = xs.length ∧
      ∀ i o row, xs[i]? = some o → rows[i]? = some row → AmountExact (data o) row.1 ∧
        (BalanceExact (balanceOf data (xs.take (i + 1))) row.2 ↔
          Shown (balanceOf data (xs.take (i + 1)))) := by
  have hsize := h.size
  have hlen := h.length_eq
  obtain ⟨rows, hrows, hlen, hall⟩ := displayLoop_ok (n := turns) (b := 0) h
    (List.nil_append p).symm h.objs (by unfold turns; omega) hvalid (by omega)
  refine ⟨rows, ?_, hlen, fun i o row ho hrow ↦ ?_⟩
  · unfold displayResult
    rw [My402List.getNext_ok h.ring.next_anchor, ok_bind]
    exact hrows
  · simpa using hall i o row ho hrow

/-- A list with its anchor at 1 and one element at 2. -/
def oneElement : My402List where
  numMembers := 1
  cells p := if p = 1 then some ⟨7, 2, 2⟩ else if p = 2 then some ⟨5, 1, 1⟩ else none

theorem represents_oneElement : Represents 1 7 oneElement [2] [5] where
  null := by decide
  anchorObj := rfl
  ring := ⟨by decide, by simp [Linked, My402List.next, My402List.prev, oneElement]⟩
  objs := rfl
  count := rfl
  size := by decide

/-- One deposit of 12.34. -/
theorem deposit_exact : ∃ rows row,
    displayResult (fun _ ↦ ⟨'+', 0, 1234, []⟩) 1 oneElement = .ok rows ∧ rows[0]? = some row ∧
      BalanceExact 1234 row.2 := by
  have hvalid : BankData.Valid ⟨'+', 0, 1234, []⟩ := ⟨.inl rfl, by decide⟩
  obtain ⟨rows, hrows, hlen, hall⟩ := displayResult_exact_iff represents_oneElement fun _ _ ↦ hvalid
  obtain ⟨row, rfl⟩ := List.length_eq_one_iff.mp hlen
  exact ⟨_, row, hrows, rfl, (hall 0 5 row rfl rfl).2.mpr (.inl (by decide))⟩

/-- A balance of 100,000.00 is shown as question marks. -/
theorem marks_too_early : Represents 1 7 oneElement [2] [5] ∧
    displayResult (fun _ ↦ ⟨'+', 0, 10 ^ 7, []⟩) 1 oneElement =
      .ok [(plain 100000 ['0', '0'], marks)] ∧ ¬ BalanceExact (10 ^ 7) marks :=
  ⟨represents_oneElement, by decide +kernel, fun h ↦ absurd (h.marks.mp rfl) (by decide)⟩

end Warmup1

end CS402.My402
