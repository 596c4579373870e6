import PrimePlus.Unicode.Coded

/-!
The scripts that characters are written in, and the characters that are used with a script whether
or not they belong to it alone. -/

namespace PrimePlus.Unicode

/-- The scripts, each with its characters and with those that either belong to it or are used with
it, but not both. A script with one code only is used with its own characters only. -/
def scriptTable : String := "
  adlam,adlm=HDEuCxejeb=GA7D2ZR0NS9;ahom=EBRcBacoew;anatolianhieroglyphs,hluw=ESSeWk;
  arabic,arab=CHcebfbnbcbBfbjlzbEdbBhDcBvJgBebbfCwbBcDNTwEkqNycDbcCb7BgpEiebFeFVnBeCpcCddDGLsdbBabb1
  2bjbd116411bcbb12E*1bb1cdbgbdbd1bjbqfcbebqCab=FY8B43D2kkC6ZM2NS9DAKabCDkBb;
  armenian,armn=BZdBlcBxccDOZje=CZ6;avestan,avst=DXCyCbdg=S3RFsb;balinese,bali=KFwCybBx;
  bamum,bamu=CLCqDjCVCqVw;bassavah,bass=FHKiBdcf;batak,batk=KNgBzid;
  bengali,beng=DPodbhcbcvbg1ddcicbcd8ebbecy=CS0CMubrbTD01cb18824ccFHV3;bhaiksuki,bhks=EDOiibBsbnkBc;
  bopomofo,bopo=BCsbRLxBqEiBf=CT1bcB3RCpcejbmkd26T5CZThbKwe;brahmi,brah=DZAeCzeBj9;
  braille,brai=PDwJv;buginese,bugi=JWaBbcb=GLF1;buhid,buhd=IUyt=IUnb;
  canadianaboriginal,cans=HOyYpVoCrDTPqp;carian,cari=DTYmBw=S3BFD82NP9;
  caucasianalbanian,aghb=DUXsBzB1=CZ2E4E4;chakma,cakm=DZKaCabr=DTmjCKej;cham=CMJwCcjncjcd;
  cherokee,cher=HLgDhcfCFJeDb=BDoc1gbwblb;chorasmian,chrs=DYXcBb;common,zyyy=aCmBafBaBubobeC3D1RhBmf
  ectL6961CL76B43D2P6BZ6EzbEU1PpdBD0CGlcCtbHvb1ES9B3hdbfbc2BDtlcDibkdkborBgClBlbccfbBabqBpceZpwkvBJr
  JwYdcBfbEaTsDpPmu1byphedDnb3DmbFrpBgBl9BwClBfDcE7DkGlJToClBHSiBhDycGjjY4Q0BN5obBEZqbIajwBibsbdO7bB
  fBafBakB0BtbCmgbgkeJyceBsdiDcmBzBsIuBaCSHwdFVgJpgQtGaElCiJlkBmcCjdqibhBdeCiIftmtmDijyFfDgbCsbb2cbc
  dbl1bgbCmbdchbgbBbbdbe1dgbNbcLfcBxHThCpCyCiBBeBreDvmocobobBkkGrCezbbnBreihbofFyBLveqdmdEoeDqgl4ple
  CdijgBniBdclebCkNbmncmdjfCdhockgihFqbDxEMMS3BeDr=S3BZ6B0bc191P4CO3B43D2BExbHM1CGlcCtbHvb1ES9B3hdbf
  bc2DE0D1B02NN3ybB041Qmpbc2bjbmqf1edDnb3DmbFrpBgBl9BwBnCeBwplF1DkykeDsBeBROjhLkjY4Q0BFPmbKbbKweB0Bt
  bNoceBsdiQbBaCSHwdIPwrLRyb;coptic,copt,qaac=BMgnPJkElfg=S3CG4db1EebBPZ3DCPcBb;
  cuneiform,xsux=EFBsBJlDyEgbelHn;cypriot,cprt=DVZkf2bBrbb32=DTImceBsdi;
  cyprominoan,cpmn=EKYyDu=DTImb;
  cyrillic,cyrl=BNkFccGmIVokQ0H6GFnBfBTOaDrBHEcbDHPgCjD3=CS0Cpc11125OhbZB3QB0;deseret,dsrt=DUMaDb;
  devanagari,deva=DKqDceoczCIJgBfBREmj=CS0CMubrbHJeBmbbDX4BZFrj;divesakuru,diak=ECKug2chbbbBdbbcljj;
  dogra,dogr=ECAyCh=DOmlCIDcj;duployan,dupl=GMDsEcfmdihjcd=S3Wtb1ybBQL1FUWpd;
  egyptianhieroglyphs,egyp=ELDgBQrkFXq;elbasan,elba=DUVwBn=S3CG9;elymaic,elym=DYYyw;
  ethiopic,ethi=GVgCubdcg1bdcBobdcBgbdcg1bdcobCebdcCocBfdzJVawjgbgbgbgbgbgbgbgBVKcfcfcfjgbgEPYfgbdbb
  bo=DA2;garay,gara=DXZcBldBcib=FY8B43;georgian,geor=GHsBl15cBqbdEJwBqccGEaBl15=S3ET3LG9PD4NQ2;
  glagolitic,glag=QRgDrGIZggbqcgbbbe=S3CG71BM22Z7LG9PD4NS0EOI3;gothic,goth=DUEaBa=S3Wqb2E0;
  grantha,gran=EADsdbhcbcvbgbbbecicbcc26fgcgde=DNtbrbYqnQP6bbBecdbDX4JEO6ETwb1;
  greek,grek=BHwdbccd141bc1btbCkopJNqeByeeeI4MivcfcBlcfch111bBecCabobncfbsccbiBD5FGD0BGNiDaB7DAXrCr=
  S3Wmb211B0E62E6JYxbCO7;gujarati,gujr=DZlcbibcbvbgbbbecjbcbc2pdclhg=DNtbrbCIDmj;
  gunjalagondi,gong=EEBwfbbbBkbbbfhj=S3DHkb;
  gurmukhi,guru=DUncbfebcvbgbbbbbb2beebcc3hd1hq=DNtbrbCIDmj;gurungkhema,gukh=FDRsCf=JG5;
  hangul,hang=GLkJvLLebJxDpEjBeCnBeBTAnBcYtQNrmweBwPAiBedfcfcfcc=SErcejbmB66T5CZThbKwe;
  hani,han=RPwzbDkmIfE71ziodBLcJTnCmBFBjBHSiObcEbBSIibmbCCOkCLFbBgGDtgIncINpoLBkpXxDQwUvCFyHHyfGFf=S
  3RWypbc2bjbmkd26edS7FspBgBl9BwBnCeBwplF1DkykeDsBeBROjhBHAzbKweDCHerLRyb;
  hanifirohingya,rohg=DXWqBnij=FY8B43D2O7;hanunoo,hano=ITsu=IUnb;hatran,hatr=DWIasbbfe;
  hebrew,hebr=CCvCciBaefDOVwzbe1bbbbbj=BDvb;
  hiragana,hira=SHdDhgcFPEvLaB8BdcCLR7=SErcejbmqf1ebDnd3DmbCZTgbKweB0Btb;
  imperialaramaic,armi=DWBwvbi;inherited,qaai,zinh=BDoEhKrbRkkC6BCidGOxBeTtcbmbg46dbHqClUebHmBgFTxdE
  dbCZUjpqnDT5W6QC6CTCuBtcwUycrhcgBedBTLHiJf=BDoobb1B2cchbbbB62B85emKrbRkkC6BCibHJxcbmbg46dbHqbF41CX
  7FTxdEdbHZA9QC6;inscriptionalpahlavi,phli=DXGqsfh;inscriptionalparthian,prti=DXFkvch;
  javanese,java=CMEyCzcjeb=GLF1;kaithi,kthi=DZFcCoB0=DOojBKE9BUFej;
  kannada,knda=ETcmbcbwbjbecibcbdhbgbbdcjbc=DNtbrbTD0bb6C31CASxf;
  katakana,kana=SKvDlccJgpIaBubDjCZHejbBsCOUcdbgbb1LbcF0od=CZ3C9QZtcejbmqf1ebDnd3DmbCZTgbKweB0Btb;
  kawi=EERwqbBodBc;kayahli,kali=CMAaBt1=GKP0;kharoshthi,khar=DWTcdbbfhbcbBcccejhi;
  khitansmallscript,kits=NYG0KGxSbE1;khmer,khmr=IXkDpcjgjSsBf;khojki,khoj=DZTwrbBu=EDijCHOij;
  khudawadi,sind=EAAqCgfj=DOmbCIDmj;kiratrai,krai=FIIiCf;laoo,lao=FMvb1bebx1bwce1bgbjcd;
  latin,latn=CnzgzE7B5fwbBebRgBneJXbBlgBwfdfmbCrCnJvBK9B3qmFlb6C7rBoECtBfBULmDxdCocb1bhvnBFkBqbibdBE
  DqgBOkzgzDCffbBpbiDDNpBegf=S3BZ6B0bc191Bmobb1B2cchbbbD85emKrbBVebHO0MU4CE6T2MY6BTUmhCD0;
  lepcha,lepc=KPsCddodc;limbu,limb=JMeBeblel4dl=JG5;lineara,lina=DVFsLyjvkh=DTItBs;
  linearb,linb=DSYqlbzbsbbbocnBiEs=DTImceBsdi;lisu=CKKuBvEQU8=CS0B6RDkb;lycian,lyci=DTXgBc=BFW2;
  lydian,lydi=DWKmz5=S3BSU1;mahajani,mahj=DZNcBm=S3DHklCIDcj;makasar,maka=EEQqy;
  malayalam,mlym=EYambcbBybcbfepcz=DNtbrbTE0C3CASzc;mandaic,mand=DDgBb2=GE0;
  manichaean,mani=DXAmBmel=GE0;marchen,marc=EDSqBfcvbn;masaramgondi,gonm=EDYegbbbBr3bbbiij=DOmb;
  medefaidrin,medf=FISeDm;meeteimayek,mtei=CMSmwHtBtcj;mendekikakui,mend=HCUyHocp;
  meroiticcursive,merc=DWPkxetcBt;meroitichieroglyphs,mero=DWOeBf=BFW5;miao,plrd=FIZoCweCehq;
  modi=EBHgCqlj=CLSaj;mongolian,mong=JCib2btgDkhBqDSCbm=JCkb1IA9FZtbfd;mroo,mro=FHEuBebjeb;
  multani,mult=DZYug1bdbobk=DYkj;myanmar,mymr=GBoGdCGAyBeDtBfBPAmt=GKP0;nabataean,nbat=DWEiBeii;
  nagmundari,nagm=HBPoBp;nandinagari,nand=ECQyhcBtck=DOmbBImjPS987CASrf;newa=EANoDnbe;
  newtailue,talu=JRcBrezgkdb;nkoo,nko=CYiCgcc=FY8B43DPPeb;nushu,nshu=NYF7YVmPf;
  nyiakengpuachuehmong,hmnp=HAEaBsdncjeb;ogham,ogam=INoBc;olchiki,olck=KSuBv;
  oldhungarian,hung=DXRsBynByhf=BFW22NP9B5;olditalic,ital=DUCeBjjc;oldnortharabian,narb=DWYaBf;
  oldpermic,perm=DUFgBq=S3CG4fcB0BK7;oldpersian,xpeo=DUIiBjen;oldsogdian,sogo=DYQiBn;
  oldsoutharabian,sarb=DWWuBf;oldturkic,orkh=DXMuCu=BFW2NQ1;olduyghur,ougr=DYUqz=GE0JWR7;
  olonal,onao=HBZkBq4=DOmb;oriya,orya=EEjcbhcbcvbgbbbecicbcchcebbecr=DNtbrbTE0C3;
  osage,osge=DUSuBjeBj=CY926H6;osmanya,osma=DUQyBdcj;pahawhhmong,hmng=FHMeCrkjbgbufs;
  palmyrene,palm=DWDcBf;paucinhau,pauc=EDCaCe;phagspa,phag=CLSqCd=JCkb1IA9PP0;
  phoenician,phnx=DWJgBb3;psalterpahlavi,phlp=DXHwrhdmg=GE0;rejang,rjng=CMBwBjB1;
  runic,runr=IOuCwdk=IRrc;samaritan,samr=DAuBtco=BTM5;saurashtra,saur=CLVcCril;
  sharada,shrd=DZOyDr=JE5TF71cb2CATrf2;shavian,shaw=DUPcBv=S3;siddham,sidd=EBCiCbcBl;
  signwriting,sgnw=GWTkZbpebo;sinhala,sinh=FCzcbrdxbi1cg3ef1bhgjccDULgt=DOmbTG4;
  sogdian,sogd=DYSeBp=GE0;sorasompeng,sora=DZIeyhj;soyombo,soyo=ECXsDe;sundanese,sund=KKuClJwh;
  sunuwar,sunu=EDLwBhoj=BDob192C83;sylotinagri,sylo=CLQeBs=DOmbEyj;
  syriac,syrc=CQynbChccKmk=BDrbcb1C1cchb1CV1ob2D2kkC6XE31;tagalog,tglg=ISmv9=IUnb;
  tagbanwa,tagb=IWembcbb=IUnb;taile,tale=JPgBdce=BDobfb3EZzj;taitham,lana=JXgCkbBcckgjgn;
  taiviet,tavt=CMOuCoye;takri,takr=EBMeCfgj=DOmbCIDmj;
  tamil,taml=EJibbfdcbddb1bbdbdcdleedcbd26ouEALhBxB3=DNtbrbTE0FHY4EAK91Cdb;tangsa,tnsa=FHGqDabj;
  tangut,tang=NYF6BfJBziBDnTsi=SEapBX5;telugu,telu=EOembcbwbpcibcbdhbbc2cdcjhi=DNtbrbTE0C3;
  thaana,thaa=CVwBx=FY8ob2CmjJJS8B0;thai=FHxCffBb=CS0C6E3E5;tibetan,tibt=FRsCtbBjeBmbBjbobgeb=SEyd;
  tifinagh,tfng=RCyCdhbB4=CZ0121;tirhuta,tirh=EASmCtij=DNtbrbTG4CASzj;todhri,todr=DVDgBz=CY92291H4;
  toto=HATkBe=CS0;tulutigalari,tutg=EAIqj12bBlbj12bdbjbbib=EXajPT81CASxfS7;ugaritic,ugar=DUHcBd1;
  vaii,vai=CKMqLn;vithkuqi,vith=DVAekbobgbbbkbobgbb;wancho,wcho=HAVgCf5;warangciti,wara=ECHcDeB2;
  yezidi,yezi=DYLkBpbccb=FY8B43Cmj;yiii,yi=CIPkBSudCc=SErbfjchW3DAEfe;zanabazarsquare,zanb=ECUqCt"

def scripts : List CodedProperty :=
  codedTable scriptTable

def scriptExtensions : List CodedProperty :=
  (fields scriptTable).filterMap fun
    | [names, _, code] => some ⟨words names, code⟩
    | _ => none

end PrimePlus.Unicode
