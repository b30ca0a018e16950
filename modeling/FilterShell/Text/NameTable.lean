import FilterShell.Text.Basic

/-!
# The table of character names

Unicode names of the characters of the usual scripts: Latin with its accented letters, Greek, the
Cyrillic and Hebrew alphabets, kana, punctuation, currency signs, and symbols.  Most names of
neighbours start alike, so the table is a list of runs.  Names have no small letters, so small
letters stand for frequent words.
-/

namespace FilterShell.Rune

/-- The names of consecutive code points: what they start with, and the rest of each, between
semicolons. -/
structure NameRun where
  first : Nat
  head  : String
  tails : List String

/-- The words that small letters stand for. -/
def nameWords : List (Char × String) :=
  [('a', " ARROW"), ('b', " BRACKET"), ('c', "CAPITAL LETTER "), ('d', "DOUBLE "), ('f', "FACE"),
   ('g', " SIGN"), ('i', "LATIN "), ('k', "CAPITAL "), ('l', "LEFT "), ('m', " MARK"),
   ('n', "AND "), ('o', " SYMBOL"), ('r', "RIGHT "), ('s', "SMALL LETTER "), ('t', "SMALL "),
   ('u', "LOWER "), ('v', "VERTICAL "), ('w', "WITH "), ('x', "CIRCUMFLEX")]

/-- A name with its words written out. -/
def spellOut (abbreviated : String) : String :=
  abbreviated.toList.foldl
    (fun name c => name ++ (nameWords.lookup c).getD c.toString) ""

/-- The name that a run has for a code point. -/
def NameRun.name? (run : NameRun) (code : Nat) : Option String :=
  if code < run.first then none
  else (run.tails.flatMap (·.splitOn ";"))[code - run.first]?.map fun tail =>
    spellOut (run.head ++ tail)

/-- The kana, in the order of both syllabaries. -/
def kana : List String :=
  ["tA;A;tI;I;tU;U;tE;E;tO;O;KA;GA;KI;GI;KU;GU;KE;GE;KO;GO;SA;ZA",
   "SI;ZI;SU;ZU;SE;ZE;SO;ZO;TA;DA;TI;DI;tTU;TU;DU;TE;DE;TO;DO;NA;NI;NU;NE;NO;HA;BA;PA;HI;BI;PI",
   "HU;BU;PU;HE;BE;PE;HO;BO;PO;MA;MI;MU;ME;MO;tYA;YA;tYU;YU;tYO;YO;RA;RI;RU;RE;RO;tWA;WA;WI;WE",
   "WO;N;VU;tKA;tKE"]

/-- The runs, in increasing order. -/
def nameRuns : List NameRun :=
  [⟨0x20, "", ["SPACE;EXCLAMATIONm;QUOTATIONm;NUMBERg;DOLLARg;PERCENTg;AMPERSAND;APOSTROPHE",
     "lPARENTHESIS;rPARENTHESIS;ASTERISK;PLUSg;COMMA;HYPHEN-MINUS;FULL STOP;SOLIDUS"]⟩,
   ⟨0x30, "DIGIT ", ["ZERO;ONE;TWO;THREE;FOUR;FIVE;SIX;SEVEN;EIGHT;NINE"]⟩,
   ⟨0x3A, "", ["COLON;SEMICOLON;LESS-THANg;EQUALSg;GREATER-THANg;QUESTIONm;COMMERCIAL AT"]⟩,
   ⟨0x41, "ic", ["A;B;C;D;E;F;G;H;I;J;K;L;M;N;O;P;Q;R;S;T;U;V;W;X;Y;Z"]⟩,
   ⟨0x5B, "", ["lSQUAREb;REVERSE SOLIDUS;rSQUAREb;x ACCENT;LOW LINE;GRAVE ACCENT"]⟩,
   ⟨0x61, "is", ["A;B;C;D;E;F;G;H;I;J;K;L;M;N;O;P;Q;R;S;T;U;V;W;X;Y;Z"]⟩,
   ⟨0x7B, "", ["lCURLYb;vLINE;rCURLYb;TILDE"]⟩,
   ⟨0xA0, "", ["NO-BREAK SPACE;INVERTED EXCLAMATIONm;CENTg;POUNDg;CURRENCYg;YENg;BROKEN BAR",
     "SECTIONg;DIAERESIS;COPYrSIGN;FEMININE ORDINAL INDICATOR;LEFT-POINTING dANGLE QUOTATIONm",
     "NOTg;SOFT HYPHEN;REGISTEREDg;MACRON;DEGREEg;PLUS-MINUSg;SUPERSCRIPT TWO;SUPERSCRIPT THREE",
     "ACUTE ACCENT;MICROg;PILCROWg;MIDDLE DOT;CEDILLA;SUPERSCRIPT ONE",
     "MASCULINE ORDINAL INDICATOR;RIGHT-POINTING dANGLE QUOTATIONm;VULGAR FRACTION ONE QUARTER",
     "VULGAR FRACTION ONE HALF;VULGAR FRACTION THREE QUARTERS;INVERTED QUESTIONm"]⟩,
   ⟨0xC0, "ic", ["A wGRAVE;A wACUTE;A wx;A wTILDE;A wDIAERESIS;A wRING ABOVE;AE;C wCEDILLA",
     "E wGRAVE;E wACUTE;E wx;E wDIAERESIS;I wGRAVE;I wACUTE;I wx;I wDIAERESIS;ETH;N wTILDE",
     "O wGRAVE;O wACUTE;O wx;O wTILDE;O wDIAERESIS"]⟩,
   ⟨0xD7, "", ["MULTIPLICATIONg"]⟩,
   ⟨0xD8, "i", ["cO wSTROKE;cU wGRAVE;cU wACUTE;cU wx;cU wDIAERESIS;cY wACUTE;cTHORN;sSHARP S",
     "sA wGRAVE;sA wACUTE;sA wx;sA wTILDE;sA wDIAERESIS;sA wRING ABOVE;sAE;sC wCEDILLA;sE wGRAVE",
     "sE wACUTE;sE wx;sE wDIAERESIS;sI wGRAVE;sI wACUTE;sI wx;sI wDIAERESIS;sETH;sN wTILDE",
     "sO wGRAVE;sO wACUTE;sO wx;sO wTILDE;sO wDIAERESIS"]⟩,
   ⟨0xF7, "", ["DIVISIONg"]⟩,
   ⟨0xF8, "i", ["sO wSTROKE;sU wGRAVE;sU wACUTE;sU wx;sU wDIAERESIS;sY wACUTE;sTHORN",
     "sY wDIAERESIS;cA wMACRON;sA wMACRON;cA wBREVE;sA wBREVE;cA wOGONEK;sA wOGONEK;cC wACUTE",
     "sC wACUTE;cC wx;sC wx;cC wDOT ABOVE;sC wDOT ABOVE;cC wCARON;sC wCARON;cD wCARON;sD wCARON",
     "cD wSTROKE;sD wSTROKE;cE wMACRON;sE wMACRON;cE wBREVE;sE wBREVE;cE wDOT ABOVE",
     "sE wDOT ABOVE;cE wOGONEK;sE wOGONEK;cE wCARON;sE wCARON;cG wx;sG wx;cG wBREVE;sG wBREVE",
     "cG wDOT ABOVE;sG wDOT ABOVE;cG wCEDILLA;sG wCEDILLA;cH wx;sH wx;cH wSTROKE;sH wSTROKE",
     "cI wTILDE;sI wTILDE;cI wMACRON;sI wMACRON;cI wBREVE;sI wBREVE;cI wOGONEK;sI wOGONEK",
     "cI wDOT ABOVE;sDOTLESS I;kLIGATURE IJ;tLIGATURE IJ;cJ wx;sJ wx;cK wCEDILLA;sK wCEDILLA",
     "sKRA;cL wACUTE;sL wACUTE;cL wCEDILLA;sL wCEDILLA;cL wCARON;sL wCARON;cL wMIDDLE DOT",
     "sL wMIDDLE DOT;cL wSTROKE;sL wSTROKE;cN wACUTE;sN wACUTE;cN wCEDILLA;sN wCEDILLA;cN wCARON",
     "sN wCARON;sN PRECEDED BY APOSTROPHE;cENG;sENG;cO wMACRON;sO wMACRON;cO wBREVE;sO wBREVE",
     "cO wdACUTE;sO wdACUTE;kLIGATURE OE;tLIGATURE OE;cR wACUTE;sR wACUTE;cR wCEDILLA",
     "sR wCEDILLA;cR wCARON;sR wCARON;cS wACUTE;sS wACUTE;cS wx;sS wx;cS wCEDILLA;sS wCEDILLA",
     "cS wCARON;sS wCARON;cT wCEDILLA;sT wCEDILLA;cT wCARON;sT wCARON;cT wSTROKE;sT wSTROKE",
     "cU wTILDE;sU wTILDE;cU wMACRON;sU wMACRON;cU wBREVE;sU wBREVE;cU wRING ABOVE",
     "sU wRING ABOVE;cU wdACUTE;sU wdACUTE;cU wOGONEK;sU wOGONEK;cW wx;sW wx;cY wx;sY wx",
     "cY wDIAERESIS;cZ wACUTE;sZ wACUTE;cZ wDOT ABOVE;sZ wDOT ABOVE;cZ wCARON;sZ wCARON;sLONG S"]⟩,
   ⟨0x370, "GREEK ", ["cHETA;sHETA;cARCHAIC SAMPI;sARCHAIC SAMPI;NUMERALg;uNUMERALg",
     "cPAMPHYLIAN DIGAMMA;sPAMPHYLIAN DIGAMMA"]⟩,
   ⟨0x37A, "GREEK ", ["YPOGEGRAMMENI;tREVERSED LUNATE SIGMAo;tDOTTED LUNATE SIGMAo",
     "tREVERSED DOTTED LUNATE SIGMAo;QUESTIONm;cYOT"]⟩,
   ⟨0x384, "GREEK ", ["TONOS;DIALYTIKA TONOS;cALPHA wTONOS;ANO TELEIA;cEPSILON wTONOS",
     "cETA wTONOS;cIOTA wTONOS"]⟩,
   ⟨0x38C, "", ["GREEK cOMICRON wTONOS"]⟩,
   ⟨0x38E, "GREEK ", ["cUPSILON wTONOS;cOMEGA wTONOS;sIOTA wDIALYTIKA nTONOS;cALPHA;cBETA;cGAMMA",
     "cDELTA;cEPSILON;cZETA;cETA;cTHETA;cIOTA;cKAPPA;cLAMDA;cMU;cNU;cXI;cOMICRON;cPI;cRHO"]⟩,
   ⟨0x3A3, "GREEK ", ["cSIGMA;cTAU;cUPSILON;cPHI;cCHI;cPSI;cOMEGA;cIOTA wDIALYTIKA",
     "cUPSILON wDIALYTIKA;sALPHA wTONOS;sEPSILON wTONOS;sETA wTONOS;sIOTA wTONOS",
     "sUPSILON wDIALYTIKA nTONOS;sALPHA;sBETA;sGAMMA;sDELTA;sEPSILON;sZETA;sETA;sTHETA;sIOTA",
     "sKAPPA;sLAMDA;sMU;sNU;sXI;sOMICRON;sPI;sRHO;sFINAL SIGMA;sSIGMA;sTAU;sUPSILON;sPHI;sCHI",
     "sPSI;sOMEGA;sIOTA wDIALYTIKA;sUPSILON wDIALYTIKA;sOMICRON wTONOS;sUPSILON wTONOS",
     "sOMEGA wTONOS;kKAIo;BETAo;THETAo;UPSILON wHOOKo;UPSILON wACUTE nHOOKo",
     "UPSILON wDIAERESIS nHOOKo;PHIo;PIo;KAIo;LETTER ARCHAIC KOPPA;sARCHAIC KOPPA;LETTER STIGMA",
     "sSTIGMA;LETTER DIGAMMA;sDIGAMMA;LETTER KOPPA;sKOPPA;LETTER SAMPI;sSAMPI"]⟩,
   ⟨0x3E2, "COPTIC ", ["cSHEI;sSHEI;cFEI;sFEI;cKHEI;sKHEI;cHORI;sHORI;cGANGIA;sGANGIA;cSHIMA",
     "sSHIMA;cDEI;sDEI"]⟩,
   ⟨0x3F0, "GREEK ", ["KAPPAo;RHOo;LUNATE SIGMAo;LETTER YOT;kTHETAo;LUNATE EPSILONo",
     "REVERSED LUNATE EPSILONo;cSHO;sSHO;kLUNATE SIGMAo;cSAN;sSAN;RHO wSTROKEo",
     "kREVERSED LUNATE SIGMAo;kDOTTED LUNATE SIGMAo;kREVERSED DOTTED LUNATE SIGMAo"]⟩,
   ⟨0x400, "CYRILLIC c", ["IE wGRAVE;IO;DJE;GJE;UKRAINIAN IE;DZE;BYELORUSSIAN-UKRAINIAN I;YI;JE",
     "LJE;NJE;TSHE;KJE;I wGRAVE;SHORT U;DZHE;A;BE;VE;GHE;DE;IE;ZHE;ZE;I;SHORT I;KA;EL;EM;EN;O;PE",
     "ER;ES;TE;U;EF;HA;TSE;CHE;SHA;SHCHA;HARDg;YERU;SOFTg;E;YU;YA"]⟩,
   ⟨0x430, "CYRILLIC s", ["A;BE;VE;GHE;DE;IE;ZHE;ZE;I;SHORT I;KA;EL;EM;EN;O;PE;ER;ES;TE;U;EF;HA",
     "TSE;CHE;SHA;SHCHA;HARDg;YERU;SOFTg;E;YU;YA;IE wGRAVE;IO;DJE;GJE;UKRAINIAN IE;DZE",
     "BYELORUSSIAN-UKRAINIAN I;YI;JE;LJE;NJE;TSHE;KJE;I wGRAVE;SHORT U;DZHE"]⟩,
   ⟨0x5D0, "HEBREW LETTER ", ["ALEF;BET;GIMEL;DALET;HE;VAV;ZAYIN;HET;TET;YOD;FINAL KAF;KAF;LAMED",
     "FINAL MEM;MEM;FINAL NUN;NUN;SAMEKH;AYIN;FINAL PE;PE;FINAL TSADI;TSADI;QOF;RESH;SHIN;TAV"]⟩,
   ⟨0x660, "ARABIC-INDIC DIGIT ", ["ZERO;ONE;TWO;THREE;FOUR;FIVE;SIX;SEVEN;EIGHT;NINE"]⟩,
   ⟨0x2000, "", ["EN QUAD;EM QUAD;EN SPACE;EM SPACE;THREE-PER-EM SPACE;FOUR-PER-EM SPACE",
     "SIX-PER-EM SPACE;FIGURE SPACE;PUNCTUATION SPACE;THIN SPACE;HAIR SPACE;ZERO WIDTH SPACE",
     "ZERO WIDTH NON-JOINER;ZERO WIDTH JOINER;LEFT-TO-rMARK;RIGHT-TO-lMARK;HYPHEN",
     "NON-BREAKING HYPHEN;FIGURE DASH;EN DASH;EM DASH;HORIZONTAL BAR;dvLINE;dLOW LINE",
     "lSINGLE QUOTATIONm;rSINGLE QUOTATIONm;SINGLE LOW-9 QUOTATIONm",
     "SINGLE HIGH-REVERSED-9 QUOTATIONm;ldQUOTATIONm;rdQUOTATIONm;dLOW-9 QUOTATIONm",
     "dHIGH-REVERSED-9 QUOTATIONm;DAGGER;dDAGGER;BULLET;TRIANGULAR BULLET;ONE DOT LEADER",
     "TWO DOT LEADER;HORIZONTAL ELLIPSIS;HYPHENATION POINT;LINE SEPARATOR;PARAGRAPH SEPARATOR",
     "LEFT-TO-rEMBEDDING;RIGHT-TO-lEMBEDDING;POP DIRECTIONAL FORMATTING;LEFT-TO-rOVERRIDE",
     "RIGHT-TO-lOVERRIDE;NARROW NO-BREAK SPACE;PER MILLEg;PER TEN THOUSANDg;PRIME;dPRIME",
     "TRIPLE PRIME;REVERSED PRIME;REVERSED dPRIME;REVERSED TRIPLE PRIME;CARET",
     "SINGLE LEFT-POINTING ANGLE QUOTATIONm;SINGLE RIGHT-POINTING ANGLE QUOTATIONm;REFERENCEm",
     "dEXCLAMATIONm;INTERROBANG;OVERLINE;UNDERTIE;CHARACTER TIE;CARET INSERTION POINT;ASTERISM",
     "HYPHEN BULLET;FRACTION SLASH;lSQUAREb wQUILL;rSQUAREb wQUILL;dQUESTIONm",
     "QUESTION EXCLAMATIONm;EXCLAMATION QUESTIONm;TIRONIANg ET;REVERSED PILCROWg",
     "BLACK LEFTWARDS BULLET;BLACK RIGHTWARDS BULLET;LOW ASTERISK;REVERSED SEMICOLON;CLOSE UP",
     "TWO ASTERISKS ALIGNED VERTICALLY;COMMERCIAL MINUSg;SWUNG DASH;INVERTED UNDERTIE",
     "FuPUNCTUATIONm;THREE DOT PUNCTUATION;QUADRUPLE PRIME;FOUR DOT PUNCTUATION",
     "FIVE DOT PUNCTUATION;TWO DOT PUNCTUATION;FOUR DOTm;DOTTED CROSS;TRICOLON;vFOUR DOTS",
     "MEDIUM MATHEMATICAL SPACE;WORD JOINER;FUNCTION APPLICATION;INVISIBLE TIMES",
     "INVISIBLE SEPARATOR;INVISIBLE PLUS"]⟩,
   ⟨0x2074, "SUPERSCRIPT ", ["FOUR;FIVE;SIX;SEVEN;EIGHT;NINE;PLUSg;MINUS;EQUALSg;lPARENTHESIS",
     "rPARENTHESIS;isN"]⟩,
   ⟨0x2080, "SUBSCRIPT ", ["ZERO;ONE;TWO;THREE;FOUR;FIVE;SIX;SEVEN;EIGHT;NINE;PLUSg;MINUS",
     "EQUALSg;lPARENTHESIS;rPARENTHESIS"]⟩,
   ⟨0x20A0, "", ["EURO-CURRENCYg;COLONg;CRUZEIROg;FRENCH FRANCg;LIRAg;MILLg;NAIRAg;PESETAg",
     "RUPEEg;WONg;NEW SHEQELg;DONGg;EUROg;KIPg;TUGRIKg;DRACHMAg;GERMAN PENNYg;PESOg;GUARANIg",
     "AUSTRALg;HRYVNIAg;CEDIg;LIVRE TOURNOISg;SPESMILOg;TENGEg;INDIAN RUPEEg;TURKISH LIRAg",
     "NORDICmg;MANATg;RUBLEg;LARIg;BITCOINg;SOMg"]⟩,
   ⟨0x2190, "", ["LEFTWARDSa;UPWARDSa;RIGHTWARDSa;DOWNWARDSa;lRIGHTa;UP DOWNa"]⟩,
   ⟨0x3000, "IDEOGRAPHIC ", ["SPACE;COMMA;FULL STOP"]⟩,
   ⟨0x3041, "HIRAGANA LETTER ", kana⟩,
   ⟨0x30A1, "KATAKANA LETTER ", kana ++ ["VA;VI;VE;VO"]⟩,
   ⟨0xFEFF, "", ["ZERO WIDTH NO-BREAK SPACE"]⟩,
   ⟨0xFFF9, "INTERLINEAR ANNOTATION ", ["ANCHOR;SEPARATOR;TERMINATOR"]⟩,
   ⟨0xFFFC, "", ["OBJECT REPLACEMENT CHARACTER;REPLACEMENT CHARACTER"]⟩,
   ⟨0x10000, "", ["LINEAR B SYLLABLE B008 A"]⟩,
   ⟨0x1D538, "", ["MATHEMATICAL DOUBLE-STRUCK kA"]⟩,
   ⟨0x1F600, "GRINNING ", ["f;f wSMILING EYES"]⟩,
   ⟨0x1F602, "", ["f wTEARS OF JOY"]⟩,
   ⟨0x1F603, "SMILING f w", ["OPEN MOUTH;OPEN MOUTH nSMILING EYES;OPEN MOUTH nCOLD SWEAT",
     "OPEN MOUTH nTIGHTLY-CLOSED EYES;HALO;HORNS"]⟩]

/-- The names of single symbols. -/
def symbolNames : List (Nat × String) :=
  [(0x300, "COMBINING GRAVE ACCENT"), (0x301, "COMBINING ACUTE ACCENT"),
   (0x302, "COMBINING x ACCENT"), (0x303, "COMBINING TILDE"), (0x308, "COMBINING DIAERESIS"),
   (0x627, "ARABIC LETTER ALEF"), (0x628, "ARABIC LETTER BEH"), (0x905, "DEVANAGARI LETTER A"),
   (0xE01, "THAI CHARACTER KO KAI"), (0x1E9E, "icSHARP S"), (0x2102, "DOUBLE-STRUCK kC"),
   (0x2103, "DEGREE CELSIUS"), (0x2115, "DOUBLE-STRUCK kN"), (0x2116, "NUMEROg"),
   (0x211D, "DOUBLE-STRUCK kR"), (0x2122, "TRADEmg"), (0x2124, "DOUBLE-STRUCK kZ"),
   (0x2126, "OHMg"), (0x212A, "KELVINg"), (0x212B, "ANGSTROMg"), (0x2200, "FOR ALL"),
   (0x2202, "PARTIAL DIFFERENTIAL"), (0x2203, "THERE EXISTS"), (0x2205, "EMPTY SET"),
   (0x2206, "INCREMENT"), (0x2207, "NABLA"), (0x2208, "ELEMENT OF"), (0x2209, "NOT AN ELEMENT OF"),
   (0x220F, "N-ARY PRODUCT"), (0x2211, "N-ARY SUMMATION"), (0x2212, "MINUSg"),
   (0x2218, "RING OPERATOR"), (0x221A, "SQUARE ROOT"), (0x221E, "INFINITY"),
   (0x2227, "LOGICAL AND"), (0x2228, "LOGICAL OR"), (0x2229, "INTERSECTION"), (0x222A, "UNION"),
   (0x222B, "INTEGRAL"), (0x2248, "ALMOST EQUAL TO"), (0x2260, "NOT EQUAL TO"),
   (0x2261, "IDENTICAL TO"), (0x2264, "LESS-THAN OR EQUAL TO"),
   (0x2265, "GREATER-THAN OR EQUAL TO"), (0x2282, "SUBSET OF"), (0x2295, "CIRCLED PLUS"),
   (0x2500, "BOX DRAWINGS LIGHT HORIZONTAL"), (0x2502, "BOX DRAWINGS LIGHT VERTICAL"),
   (0x2588, "FULL BLOCK"), (0x25A0, "BLACK SQUARE"), (0x25CB, "WHITE CIRCLE"),
   (0x25CF, "BLACK CIRCLE"), (0x2603, "SNOWMAN"), (0x2605, "BLACK STAR"), (0x2606, "WHITE STAR"),
   (0x263A, "WHITE SMILING f"), (0x2660, "BLACK SPADE SUIT"), (0x2663, "BLACK CLUB SUIT"),
   (0x2665, "BLACK HEART SUIT"), (0x2666, "BLACK DIAMOND SUIT"), (0x266A, "EIGHTH NOTE"),
   (0x2713, "CHECKm"), (0x2714, "HEAVY CHECKm"), (0x2717, "BALLOT X"),
   (0x2764, "HEAVY BLACK HEART"), (0x10348, "GOTHIC LETTER HWAIR"), (0x1D11E, "MUSICALo G CLEF"),
   (0x1F389, "PARTY POPPER"), (0x1F40D, "SNAKE"), (0x1F44D, "THUMBS UPg"), (0x1F4A9, "PILE OF POO"),
   (0x1F525, "FIRE"), (0x1F680, "ROCKET")]

end FilterShell.Rune
