/-
  The cases that the command line tests.
-/

namespace DanishProse.Corpus

/-- The name of the file that the cases are known by. -/
def suiteName : String := "tests/corpus/sprog.dk"

/-- The text of the file. -/
def suite : String := "════════════════════════════════════════════════════════════════
Print et tal
────────────────────────────────────────────────────────────────
Offentlig funktion hovedprogram tilbagegiver heltal.
Goddag.
    Print to.
Farvel.
────────────────────────────────────────────────────────────────
2
════════════════════════════════════════════════════════════════
Talord og cifre
────────────────────────────────────────────────────────────────
Offentlig funktion hovedprogram tilbagegiver heltal.
Goddag.
    Print tretusindetohundrede.
    Print 42.
    Print nul.
Farvel.
────────────────────────────────────────────────────────────────
3200
42
0
════════════════════════════════════════════════════════════════
Lokale variable
────────────────────────────────────────────────────────────────
Offentlig funktion hovedprogram tilbagegiver heltal.
Goddag.
    Lad A være et heltal.
    Lad B være et heltal.
    Gem fem i A.
    Gem (gang A med tre) i B.
    Print A.
    Print B.
Farvel.
────────────────────────────────────────────────────────────────
5
15
════════════════════════════════════════════════════════════════
Stedord
────────────────────────────────────────────────────────────────
Offentlig funktion hovedprogram tilbagegiver heltal.
Goddag.
    Læg to sammen med tre, og print det.
    Lad B være et heltal.
    Gang fire med fem, og gem det i B.
    Print B.
Farvel.
────────────────────────────────────────────────────────────────
5
20
════════════════════════════════════════════════════════════════
Betingelser
────────────────────────────────────────────────────────────────
Offentlig funktion hovedprogram tilbagegiver heltal.
Goddag.
    Hvis fem er større end tre.
    Goddag.
        Print sand.
    Farvel.
    Ellers.
    Goddag.
        Print falsk.
    Farvel.
    Hvis fem er lig med tre.
    Goddag.
        Print et.
    Farvel.
    Print to.
Farvel.
────────────────────────────────────────────────────────────────
sand
2
════════════════════════════════════════════════════════════════
Løkke
────────────────────────────────────────────────────────────────
Offentlig funktion hovedprogram tilbagegiver heltal.
Goddag.
    Lad Tæller være et heltal.
    Gem nul i Tæller.
    Imens Tæller er mindre end tre.
    Goddag.
        Print Tæller.
        Gem (læg Tæller sammen med et) i Tæller.
    Farvel.
Farvel.
────────────────────────────────────────────────────────────────
0
1
2
════════════════════════════════════════════════════════════════
Funktioner
────────────────────────────────────────────────────────────────
Offentlig funktion hovedprogram tilbagegiver heltal.
Goddag.
    Print (kvadratet af syv).
    Print (forskellen mellem ti og fire).
Farvel.

Offentlig funktion kvadratet af (N som heltal) tilbagegiver heltal.
Goddag.
    Tilbagegiv gang N med N.
Farvel.

Offentlig funktion forskellen mellem (A som heltal) og (B som heltal) tilbagegiver heltal.
Goddag.
    Tilbagegiv træk A fra B.
Farvel.
────────────────────────────────────────────────────────────────
49
6
════════════════════════════════════════════════════════════════
Rekursion
────────────────────────────────────────────────────────────────
Offentlig funktion hovedprogram tilbagegiver heltal.
Goddag.
    Print (fakultet af fem).
Farvel.

Offentlig funktion fakultet af (N som heltal) tilbagegiver heltal.
Goddag.
    Hvis N er mindre end to.
    Goddag.
        Tilbagegiv et.
    Farvel.
    Tilbagegiv gang N med (fakultet af (træk N fra et)).
Farvel.
────────────────────────────────────────────────────────────────
120
════════════════════════════════════════════════════════════════
Kommatal
────────────────────────────────────────────────────────────────
Offentlig funktion hovedprogram tilbagegiver heltal.
Goddag.
    Print (læg 1,5 sammen med 2,25).
    Print (støb syv som flyder).
    Print (støb 2,75 som heltal).
    Print (1,5 er mindre end 2,0).
Farvel.
────────────────────────────────────────────────────────────────
3.75
7
2
sand
════════════════════════════════════════════════════════════════
Heltalsdivision og negative tal
────────────────────────────────────────────────────────────────
Offentlig funktion hovedprogram tilbagegiver heltal.
Goddag.
    Print (del syv med to).
    Print (træk to fra fem).
Farvel.
────────────────────────────────────────────────────────────────
3
-3
════════════════════════════════════════════════════════════════
Logik
────────────────────────────────────────────────────────────────
Offentlig funktion hovedprogram tilbagegiver heltal.
Goddag.
    Print (både sand og (ikke falsk)).
    Print (enten falsk eller falsk).
Farvel.
────────────────────────────────────────────────────────────────
sand
falsk
════════════════════════════════════════════════════════════════
Bemærkninger
────────────────────────────────────────────────────────────────
Bemærk dette program printer kun en ting
Offentlig funktion hovedprogram tilbagegiver heltal.
Goddag.
    Bemærk print et.
    Print to.
Farvel.
────────────────────────────────────────────────────────────────
2
════════════════════════════════════════════════════════════════
Ukendt funktion
────────────────────────────────────────────────────────────────
Offentlig funktion hovedprogram tilbagegiver heltal.
Goddag.
    Print Q.
Farvel.
────────────────────────────────────────────────────────────────
Unresolved function
    Pattern: Print Q
════════════════════════════════════════════════════════════════
Forkert type
────────────────────────────────────────────────────────────────
Offentlig funktion hovedprogram tilbagegiver heltal.
Goddag.
    Lad A være et heltal.
    Gem 1,5 i A.
Farvel.
────────────────────────────────────────────────────────────────
Type mismatch
    Wanted: heltal
    Given:  flyder
════════════════════════════════════════════════════════════════
Manglende punktum
────────────────────────────────────────────────────────────────
Offentlig funktion hovedprogram tilbagegiver heltal.
Goddag.
    Print to
Farvel.
────────────────────────────────────────────────────────────────
Unexpected token
    Wanted: farvel
    Given:  end of input
════════════════════════════════════════════════════════════════
"

end DanishProse.Corpus
