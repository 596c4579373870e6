import PrimePlus.Unicode.Coded

/-!
The roles that characters play where text is cut into graphemes, words and sentences.
-/

namespace PrimePlus.Unicode

def graphemeBreaks : List CodedProperty :=
  codedTable "
  control,cn=ajbbbrDrBgB3FJ0RR3HW4cbygBxpILD5JglTUapBZQudHWxhBTKZlBfDsExJgFIl;cr=B3;l=GLkDrCFOqBc;
  lf=B0;lv=GNJ2PI*C7;prepend,pp=CHcfV5E9OubI0EJ1JVL4B5JkbCA5FI91Y8CvfCS0BS3;
  regionalindicator,ri=HGOkz;t=GRwDjCWXnBw;v=GPcCtCWZwwFRI0dd;zwj=BFO5"

def derivedGraphemeBreaks : List DerivedProperty :=
  derivedTable "
  extend,ex=mn,me,ogrext=HHIxe;lvt=lv=CNDoQNr;spacingmark,sm=mc=JP4C4BJ8C4K2C4X21ebbbjbK3C4L9B5I3M7O
  lbB1BpccgC1df2kcGJ6D0DD2bbU851fbK1CtbHRebEPH1K8S61DXR4L6BA4B49J692bc5W4B2Y1BA2EbbCA6B2FX9BEOkbBKXn
  bgf"

def wordBreaks : List CodedProperty :=
  codedTable "
  cr=B3;doublequote,dq=D4;extendnumlet,ex=J5BFI3pbB9DGAobycX9;
  format,fo=R3FJ0RR3DAtbBaeBxebjILD5JpcTUapBZQudHWxhEOCO2;hebrewletter,hl=CFgBaedJHK2bjbmbe1bbbbbj;
  katakana,ka=SGneDxbdDmbdJgpIaBubDjCZHeCdCOUcdbgbb1LbcF0od;lf=B0;
  midletter,ml=F8M4CT9BV1O8ZU6IKN1G5T6;midnum,mn=E4B4DF4CA2FabJ4BN5XX9IKQ33S3B4;
  midnumlet,mb=E6MCfbB0IKT7S06;newline,nl=lbM0LZmb;regionalindicator,ri=HGOkz;singlequote,sq=D9;
  wsegspace=D2WA7DPngbcI4PK0;zwj=BFO5"

def derivedWordBreaks : List DerivedProperty :=
  derivedTable "
  aletter,le=lu,ll,lt,lo,lm,nl=BBedmfgbfg1bqXec1E3CrBaeeBC3CQjBvbbmgCgb1bebx1bjbb9ce1vdLcBqC0qfed3db
  hcemB2CQjBzD54OhBdcelBrezDiCaI2DVaBzEFkbziheccgDhgcbDlbdJgpTsJTnCmBFBjCRgojbDzbWzebjkeDtw3dBx1dbce
  21ycM5BDKmObcEbG7bjbmbe1bbbbbjBOgCfIWeBaBlgBHPpJBziBVpBpjNFrdbgbbbLeB5Bdc2odiPfXOmzgzgzFMkCLFbBgGD
  tgIncINpoLBkpXxDQwUvCFyHHyfGFf;extend=mn,me,mc=BFO4DGRhbDONzeBSXYuDr;
  numeric,nu=nd=CHcfK1L3QsbI0QS3JJC2B5"

def sentenceBreaks : List CodedProperty :=
  codedTable "
  aterm,at=E6BFM1IKT7S7;cr=B3;format,fo=R3FJ0Y2QT0HW4cbBaeBxebjILD5JpcTUapBZQudHWxhEOCO2;lf=B0;
  scontinue,sc=BsbmbDF4BV8GsbBX0PU55DBebPR6DAAwbbbBcbBdbcb2B0GmbmbH2;sep,se=N3LZmb;
  sp=9bbB9M7VN9DPnkD6E7PK0"

def derivedSentenceBreaks : List DerivedProperty :=
  derivedTable "
  close,cl=ps,pe,pi,pf=D44OVzfCNfbec2GQVyc;extend,ex=mn,me,mc=MDobDGRgbBWMMyDr;
  lower,lo=ll,olower=DF7FDiBqcc;numeric,nu=nd=CHcfDxbL2QsbI0QS3JJC2B5;oletter,le=lo,lm,nl=R0B5ThihbB
  eeO9CL2ECyBqbdEJwBqccEeCkB3BiBkCQ9B3qmHnBfEEebBUGkbV0EzcdbBHid9BFXcbHT6ccbBpbiDDZhCj;
  sterm,st=sterm=E6BFM1IKT7S7;upper,up=lu,lt=KVgBqccBTopBGgzGSIyzgzgz"

end PrimePlus.Unicode
